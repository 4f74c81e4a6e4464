import Mathlib.Algebra.Order.Ring.Nat
import Mathlib.Data.List.DropRight

/-!
# Formatted input

The part of the input functions of the C standard library that reads words and unsigned
decimal numbers, on the characters of a text.  White space is skipped before a word and
before a number; a conversion that fails ends the call, and leaves the character that does
not fit.  The value `none`, or `undefined`, stands for undefined behaviour: a number that
its type does not hold.

Main results:

- Theorem `scanWord_append`: a word is read up to the white space behind it.
- Theorem `scanf_numbers`: a format reads the numbers that are there, whatever the white
  space between them, and stops at the first character that belongs to no number.
- Theorem `fgets_line`: a line that fits its buffer is read with its end.
- Theorem `fscanf_words`: a format with words and numbers reads the words of a text.
-/

namespace Stdio

/-! ## The input functions -/

/-- `isspace` in the C locale. -/
def isSpace (c : Char) : Bool :=
  c == ' ' || (decide (9 ≤ c.toNat) && decide (c.toNat ≤ 13))

/-- What white space in a format does. -/
def skipSpace (s : List Char) : List Char :=
  s.dropWhile isSpace

/-- `%s`: the word and what is left; `none` when the input ends before a word. -/
def scanWord (s : List Char) : Option (List Char × List Char) :=
  match skipSpace s with
  | [] => none
  | c :: rest =>
      some ((c :: rest).takeWhile fun c => !isSpace c,
        (c :: rest).dropWhile fun c => !isSpace c)

/-- The result of a conversion: the number and what is left, or a failure and what is
left. -/
inductive Scanned
  | item (n : Nat) (rest : List Char)
  | failed (rest : List Char)
  | undefined
deriving DecidableEq

/-- The sign of a number. -/
def scanSign : List Char → Bool × List Char
  | '-' :: rest => (true, rest)
  | '+' :: rest => (false, rest)
  | s => (false, s)

/-- The conversion of an unsigned decimal number of `w` bits. -/
def scanUnsigned (w : Nat) (s : List Char) : Scanned :=
  let signed := scanSign (skipSpace s)
  let digits := signed.2.takeWhile Char.isDigit
  let rest := signed.2.dropWhile Char.isDigit
  if digits.isEmpty then .failed rest
  else
    let n := Nat.ofDigitChars 10 digits 0
    if n < 2 ^ w then .item (if signed.1 then (2 ^ w - n) % 2 ^ w else n) rest
    else .undefined

/-- The directives of a format. -/
inductive Directive
  | space
  | number
deriving DecidableEq

/-- `fscanf`, and `sscanf` on a string: the numbers that are assigned, and what is left of
the input. -/
def scanf (w : Nat) : List Directive → List Char → Option (List Nat × List Char)
  | [], s => some ([], s)
  | .space :: format, s => scanf w format (skipSpace s)
  | .number :: format, s =>
      match scanUnsigned w s with
      | .item n rest => (scanf w format rest).map fun r => (n :: r.1, r.2)
      | .failed rest => some ([], rest)
      | .undefined => none

/-- The loop of `fgets`: at most `n` characters, up to the end of a line. -/
def takeLine : Nat → List Char → List Char × List Char
  | 0, s => ([], s)
  | _ + 1, [] => ([], [])
  | n + 1, c :: s =>
      if c = '\n' then ([c], s)
      else
        let r := takeLine n s
        (c :: r.1, r.2)

/-- `fgets` into a buffer of `size` characters: the string and what is left; `none` at the
end of the input, where the buffer is not changed. -/
def fgets (size : Nat) (s : List Char) : Option (List Char × List Char) :=
  if s = [] then none else some (takeLine (size - 1) s)

/-! ## White space -/

/-- A text that begins with no character of a kind. -/
def NotHead (p : Char → Bool) (s : List Char) : Prop :=
  ∀ c ∈ s.head?, p c = false

/-- Nothing follows at the end of the text. -/
theorem notHead_nil (p : Char → Bool) : NotHead p [] := by
  simp [NotHead]

/-- The next character decides. -/
theorem notHead_cons {p : Char → Bool} {c : Char} {s : List Char} :
    NotHead p (c :: s) ↔ p c = false := by
  simp [NotHead]

/-- Nothing is taken from a text that begins otherwise. -/
theorem takeWhile_of_notHead {p : Char → Bool} {s : List Char} (hs : NotHead p s) :
    s.takeWhile p = [] := by
  cases s with
  | nil => rfl
  | cons c s => rw [List.takeWhile_cons, notHead_cons.mp hs]; rfl

/-- Nor is anything dropped from it. -/
theorem dropWhile_of_notHead {p : Char → Bool} {s : List Char} (hs : NotHead p s) :
    s.dropWhile p = s := by
  cases s with
  | nil => rfl
  | cons c s => rw [List.dropWhile_cons, notHead_cons.mp hs]; rfl

/-- A run of characters of a kind ends before the first one that is not of it. -/
theorem takeWhile_run {p : Char → Bool} {xs s : List Char} (hxs : ∀ c ∈ xs, p c = true)
    (hs : NotHead p s) : (xs ++ s).takeWhile p = xs := by
  rw [List.takeWhile_append_of_pos hxs, takeWhile_of_notHead hs, List.append_nil]

/-- A run of characters is dropped up to its end. -/
theorem dropWhile_run {p : Char → Bool} {xs s : List Char} (hxs : ∀ c ∈ xs, p c = true)
    (hs : NotHead p s) : (xs ++ s).dropWhile p = s := by
  rw [List.dropWhile_append_of_pos hxs, dropWhile_of_notHead hs]

/-- White space in front is skipped. -/
theorem skipSpace_append {ws : List Char} (hws : ∀ c ∈ ws, isSpace c = true)
    (s : List Char) : skipSpace (ws ++ s) = skipSpace s :=
  List.dropWhile_append_of_pos hws

/-- So is the end of a line. -/
theorem skipSpace_newline (s : List Char) : skipSpace ('\n' :: s) = skipSpace s :=
  rfl

/-- There is nothing more to skip then. -/
theorem skipSpace_skipSpace (s : List Char) : skipSpace (skipSpace s) = skipSpace s :=
  List.dropWhile_idempotent _ _

/-! ## Words -/

/-- A word: characters that are not white space, and at least one. -/
structure IsWord (word : List Char) : Prop where
  ne_nil : word ≠ []
  solid : ∀ c ∈ word, isSpace c = false

/-- A word is read up to the white space behind it. -/
theorem scanWord_append {word s input : List Char} (hword : IsWord word)
    (hs : NotHead (fun c => !isSpace c) s) (hinput : skipSpace input = skipSpace (word ++ s)) :
    scanWord input = some (word, s) := by
  have hsolid : ∀ c ∈ word, (fun c => !isSpace c) c = true := fun c hc => by
    simp [hword.solid c hc]
  cases hcase : word with
  | nil => exact absurd hcase hword.ne_nil
  | cons c rest =>
      have hhead : skipSpace input = c :: rest ++ s := by
        rw [hinput, hcase]
        refine dropWhile_of_notHead (notHead_cons.mpr (hword.solid c ?_))
        rw [hcase]
        exact List.mem_cons_self ..
      rw [hcase] at hsolid
      rw [scanWord, hhead, List.cons_append]
      simp only
      rw [← List.cons_append, takeWhile_run hsolid hs, dropWhile_run hsolid hs]

/-- At the end of the input there is no word. -/
theorem scanWord_end {input : List Char} (hinput : skipSpace input = []) :
    scanWord input = none := by
  rw [scanWord, hinput]

/-! ## Numbers -/

/-- A text in which no number goes on, and before which a conversion fails. -/
structure NumberEnd (s : List Char) : Prop where
  digit : NotHead Char.isDigit s
  next : NotHead (fun c => c.isDigit || c == '-' || c == '+') (skipSpace s)

/-- A number without a sign. -/
theorem scanSign_of_notHead {s : List Char}
    (hs : NotHead (fun c => c == '-' || c == '+') s) : scanSign s = (false, s) := by
  unfold scanSign
  split
  · simp [NotHead] at hs
  · simp [NotHead] at hs
  · rfl

/-- A digit is neither white space nor a sign. -/
theorem isDigit_solid {c : Char} (hc : c.isDigit = true) :
    isSpace c = false ∧ (c == '-' || c == '+') = false := by
  have hrange : 48 ≤ c.toNat ∧ c.toNat ≤ 57 := by
    simpa [Char.isDigit, UInt32.le_iff_toNat_le] using hc
  have hne : ∀ d : Char, d.toNat < 48 → (c == d) = false := by
    rintro d hd
    rw [beq_eq_false_iff_ne]
    rintro rfl
    omega
  constructor
  · have hnot : ¬ (9 ≤ c.toNat ∧ c.toNat ≤ 13) := by omega
    rw [isSpace, hne ' ' (by decide), Bool.false_or, ← Bool.decide_and,
      decide_eq_false hnot]
  · rw [hne '-' (by decide), hne '+' (by decide)]
    rfl

/-- A printed number has digits only. -/
theorem toDigits_isDigit (n : Nat) : ∀ c ∈ Nat.toDigits 10 n, c.isDigit = true :=
  fun _ hc => Nat.isDigit_of_mem_toDigits (by decide) (by decide) hc

/-- A printed number begins with a digit, and has no sign. -/
theorem scanSign_toDigits {n : Nat} {s input : List Char}
    (hinput : skipSpace input = skipSpace (Nat.toDigits 10 n ++ s)) :
    scanSign (skipSpace input) = (false, Nat.toDigits 10 n ++ s) := by
  cases hcase : Nat.toDigits 10 n with
  | nil => exact absurd hcase Nat.toDigits_ne_nil
  | cons d ds =>
      have hd := isDigit_solid
        (toDigits_isDigit n d (by rw [hcase]; exact List.mem_cons_self ..))
      rw [hinput, hcase, List.cons_append, skipSpace,
        dropWhile_of_notHead (notHead_cons.mpr hd.1)]
      exact scanSign_of_notHead (notHead_cons.mpr hd.2)

/-- A printed number is read when its type holds it. -/
theorem scanUnsigned_toDigits (w : Nat) {n : Nat} {s input : List Char}
    (hs : NotHead Char.isDigit s)
    (hinput : skipSpace input = skipSpace (Nat.toDigits 10 n ++ s)) :
    scanUnsigned w input = if n < 2 ^ w then .item n s else .undefined := by
  have hdigits := toDigits_isDigit n
  rw [scanUnsigned, scanSign_toDigits hinput]
  simp only [takeWhile_run hdigits hs, dropWhile_run hdigits hs]
  rw [if_neg (by simp), Nat.ofDigitChars_toDigits (by decide) (by decide)]
  rfl

/-- Before a character that belongs to no number, a conversion fails. -/
theorem scanUnsigned_end {w : Nat} {s input : List Char} (hs : NumberEnd s)
    (hinput : skipSpace input = skipSpace s) :
    scanUnsigned w input = .failed (skipSpace s) := by
  have hdigit : NotHead Char.isDigit (skipSpace s) := fun c hc => by
    have hnext := hs.next c hc
    simp only [Bool.or_eq_false_iff] at hnext
    exact hnext.1.1
  have hsign : scanSign (skipSpace s) = (false, skipSpace s) :=
    scanSign_of_notHead fun c hc => by
      have hnext := hs.next c hc
      simp only [Bool.or_eq_false_iff] at hnext ⊢
      exact ⟨hnext.1.2, hnext.2⟩
  rw [scanUnsigned, hinput, hsign]
  simp only [takeWhile_of_notHead hdigit, dropWhile_of_notHead hdigit, List.isEmpty_nil, if_true]

/-! ## Formats -/

/-- The characters that separate words in a line. -/
def isBlank (c : Char) : Bool :=
  c == ' ' || c == '\t'

/-- Blanks are white space. -/
theorem isSpace_of_isBlank {c : Char} (hc : isBlank c = true) : isSpace c = true := by
  rcases (Bool.or_eq_true _ _).mp hc with hc | hc
  · rw [beq_iff_eq.mp hc]
    rfl
  · rw [beq_iff_eq.mp hc]
    rfl

/-- Blanks are no digits. -/
theorem isDigit_of_isBlank (c : Char) (hc : isBlank c = true) : c.isDigit = false := by
  rcases (Bool.or_eq_true _ _).mp hc with hc | hc
  · rw [beq_iff_eq.mp hc]
    rfl
  · rw [beq_iff_eq.mp hc]
    rfl

/-- Blanks before the end of the numbers. -/
theorem NumberEnd.append {blanks s : List Char} (hblanks : ∀ c ∈ blanks, isBlank c = true)
    (h : NumberEnd s) : NumberEnd (blanks ++ s) where
  digit := by
    cases blanks with
    | nil => exact h.digit
    | cons c cs =>
        exact notHead_cons.mpr (isDigit_of_isBlank c (hblanks c (List.mem_cons_self ..)))
  next := by
    rw [skipSpace_append fun c hc => isSpace_of_isBlank (hblanks c hc)]
    exact h.next

/-- Numbers printed one after the other, with blanks before each of them. -/
inductive PrintsNumbers : List Nat → List Char → Prop
  | nil : PrintsNumbers [] []
  | cons {blanks rest : List Char} {n : Nat} {ns : List Nat} : blanks ≠ [] →
      (∀ c ∈ blanks, isBlank c = true) → PrintsNumbers ns rest →
      PrintsNumbers (n :: ns) (blanks ++ (Nat.toDigits 10 n ++ rest))

/-- Behind a number, the text goes on with a blank or with what follows. -/
theorem PrintsNumbers.notHead {p : Char → Bool} (hp : ∀ c, isBlank c = true → p c = false)
    {ns : List Nat} {text s : List Char} (h : PrintsNumbers ns text) (hs : NotHead p s) :
    NotHead p (text ++ s) := by
  cases h with
  | nil => exact hs
  | cons hne hblanks hrest =>
      rename_i blanks rest n ns
      cases blanks with
      | nil => exact absurd rfl hne
      | cons c cs => exact notHead_cons.mpr (hp c (hblanks c (List.mem_cons_self ..)))

/-- Blanks do not end a line. -/
theorem ne_newline_of_isBlank {c : Char} (hc : isBlank c = true) : c ≠ '\n' := by
  rintro rfl
  exact absurd hc (by decide)

/-- Printed numbers stay in one line. -/
theorem PrintsNumbers.ne_newline {ns : List Nat} {text : List Char}
    (h : PrintsNumbers ns text) : ∀ c ∈ text, c ≠ '\n' := by
  induction h with
  | nil => simp
  | cons _ hblanks _ ih =>
      intro c hc
      rcases List.mem_append.mp hc with hc | hc
      · exact ne_newline_of_isBlank (hblanks c hc)
      · rcases List.mem_append.mp hc with hc | hc
        · rintro rfl
          exact absurd (Nat.isDigit_of_mem_toDigits (by decide) (by decide) hc) (by decide)
        · exact ih c hc

/-- The first digits of a number are those of a smaller one. -/
theorem take_toDigits (n : Nat) {k : Nat} (hk : 0 < k) :
    ∃ m, m ≤ n ∧ (Nat.toDigits 10 n).take k = Nat.toDigits 10 m := by
  induction n using Nat.strongRecOn with
  | ind n ih =>
      by_cases hlength : (Nat.toDigits 10 n).length ≤ k
      · exact ⟨n, Nat.le_refl n, List.take_of_length_le hlength⟩
      · by_cases hn : n < 10
        · rw [Nat.toDigits_of_lt_base hn] at hlength
          exact absurd hk (by simpa using hlength)
        · have hbase := Nat.toDigits_of_base_le (b := 10) (by decide) (Nat.not_lt.mp hn)
          obtain ⟨m, hm, htake⟩ := ih (n / 10) (by omega)
          rw [hbase, List.length_append, List.length_singleton] at hlength
          refine ⟨m, by omega, ?_⟩
          rw [hbase, List.take_append_of_le_length (by omega), htake]

/-- What is left of printed numbers when the text is cut: numbers, and perhaps blanks. -/
theorem PrintsNumbers.take {ns : List Nat} {text : List Char} (h : PrintsNumbers ns text)
    (k : Nat) :
    ∃ ms numbers blanks, text.take k = numbers ++ blanks ∧ PrintsNumbers ms numbers ∧
      (∀ c ∈ blanks, isBlank c = true) ∧ ms.length ≤ ns.length ∧
      ∀ m ∈ ms, ∃ n ∈ ns, m ≤ n := by
  induction h generalizing k with
  | nil => exact ⟨[], [], [], by simp, .nil, by simp, Nat.le_refl 0, by simp⟩
  | @cons blanks rest n ns hne hblanks hrest ih =>
      by_cases hcut : k ≤ blanks.length
      · refine ⟨[], [], blanks.take k, ?_, .nil, ?_, Nat.zero_le _, by simp⟩
        · rw [List.take_append_of_le_length hcut, List.nil_append]
        · exact fun c hc => hblanks c (List.mem_of_mem_take hc)
      · obtain ⟨m, hm, htake⟩ := take_toDigits n (k := k - blanks.length) (by omega)
        obtain ⟨ms, numbers, last, heq, hprints, hlast, hlength, hle⟩ :=
          ih (k - blanks.length - (Nat.toDigits 10 n).length)
        refine ⟨m :: ms, blanks ++ (Nat.toDigits 10 m ++ numbers), last, ?_,
          .cons hne hblanks hprints, hlast, Nat.succ_le_succ hlength, ?_⟩
        · rw [List.take_append, List.take_of_length_le (by omega), List.take_append, htake, heq]
          simp only [List.append_assoc]
        · intro j hj
          rcases List.mem_cons.mp hj with rfl | hj
          · exact ⟨n, List.mem_cons_self .., hm⟩
          · obtain ⟨i, hi, hji⟩ := hle j hj
            exact ⟨i, List.mem_cons_of_mem _ hi, hji⟩

/-- A format reads the numbers that are there, and no others. -/
theorem scanf_numbers {w : Nat} (format : List Directive) {ns : List Nat}
    {text s input : List Char} (hprints : PrintsNumbers ns text)
    (hfit : ∀ n ∈ ns, n < 2 ^ w) (hcount : ns.length ≤ format.count .number)
    (hs : NumberEnd s) (hinput : skipSpace input = skipSpace (text ++ s)) :
    ∃ rest, scanf w format input = some (ns, rest) ∧ skipSpace rest = skipSpace s := by
  induction format generalizing ns text input with
  | nil =>
      cases hprints with
      | nil => exact ⟨input, rfl, hinput⟩
      | cons => simp at hcount
  | cons directive format ih =>
      cases directive with
      | space =>
          rw [List.count_cons_of_ne (by decide)] at hcount
          rw [scanf]
          exact ih hprints hfit hcount (by rw [skipSpace_skipSpace, hinput])
      | number =>
          cases hprints with
          | nil =>
              refine ⟨skipSpace s, ?_, skipSpace_skipSpace s⟩
              rw [scanf, scanUnsigned_end hs hinput]
          | cons hne hblanks hrest =>
              rename_i blanks rest n ns
              rw [List.count_cons_self, List.length_cons] at hcount
              have hblank : ∀ c ∈ blanks, isSpace c = true := fun c hc =>
                isSpace_of_isBlank (hblanks c hc)
              rw [List.append_assoc, List.append_assoc, skipSpace_append hblank] at hinput
              have hnot : NotHead Char.isDigit (rest ++ s) :=
                hrest.notHead isDigit_of_isBlank hs.digit
              have hscan := scanUnsigned_toDigits w hnot hinput
              rw [if_pos (hfit n (List.mem_cons_self ..))] at hscan
              obtain ⟨left, hleft, hend⟩ :=
                ih hrest (fun k hk => hfit k (List.mem_cons_of_mem _ hk)) (by omega)
                  (rfl : skipSpace (rest ++ s) = skipSpace (rest ++ s))
              refine ⟨left, ?_, hend⟩
              rw [scanf, hscan]
              simp only [hleft, Option.map_some]

/-- A line that fits its buffer is read with its end. -/
theorem fgets_line {size : Nat} {line : List Char} (hline : ∀ c ∈ line, c ≠ '\n')
    (hsize : line.length + 1 < size) (rest : List Char) :
    fgets size (line ++ '\n' :: rest) = some (line ++ ['\n'], rest) := by
  have htake : ∀ n, line.length < n →
      takeLine n (line ++ '\n' :: rest) = (line ++ ['\n'], rest) := by
    induction line with
    | nil =>
        intro n hn
        cases n with
        | zero => exact absurd hn (Nat.not_lt_zero _)
        | succ n => rfl
    | cons c line ih =>
        intro n hn
        cases n with
        | zero => exact absurd hn (Nat.not_lt_zero _)
        | succ n =>
            have hc : c ≠ '\n' := hline c (List.mem_cons_self ..)
            rw [List.cons_append, takeLine, if_neg hc,
              ih (fun d hd => hline d (List.mem_cons_of_mem _ hd))
                (by rw [List.length_cons] at hsize; omega) n
                (by rw [List.length_cons] at hn; omega)]
            rfl
  rw [fgets, if_neg (by simp), htake (size - 1) (by omega)]

/-- The last line of a text need not have an end. -/
theorem fgets_last {size : Nat} {line : List Char} (hline : ∀ c ∈ line, c ≠ '\n')
    (hsize : line.length < size) (hne : line ≠ []) :
    fgets size line = some (line, []) := by
  have htake : ∀ n, line.length ≤ n → takeLine n line = (line, []) := by
    clear hsize hne
    induction line with
    | nil =>
        intro n _
        cases n <;> rfl
    | cons c line ih =>
        intro n hn
        cases n with
        | zero => simp at hn
        | succ n =>
            have hc : c ≠ '\n' := hline c (List.mem_cons_self ..)
            rw [takeLine, if_neg hc, ih (fun d hd => hline d (List.mem_cons_of_mem _ hd)) n
              (by rw [List.length_cons] at hn; omega)]
  rw [fgets, if_neg hne, htake (size - 1) (by omega)]

/-! ## Mixed formats -/

/-- The words of a text, with white space between them. -/
inductive PrintsWords : List (List Char) → List Char → Prop
  | nil {space : List Char} : (∀ c ∈ space, isSpace c = true) → PrintsWords [] space
  | cons {space word rest : List Char} {words : List (List Char)} :
      (∀ c ∈ space, isSpace c = true) → IsWord word → NotHead (fun c => !isSpace c) rest →
      PrintsWords words rest → PrintsWords (word :: words) (space ++ (word ++ rest))

/-- White space in a format takes no word. -/
theorem PrintsWords.skipSpace {words : List (List Char)} {text : List Char}
    (h : PrintsWords words text) : PrintsWords words (skipSpace text) := by
  cases h with
  | nil hspace =>
      rw [← List.append_nil text, skipSpace_append hspace]
      exact .nil (by simp [Stdio.skipSpace])
  | @cons space word rest words hspace hword hrest hwords =>
      have hhead : NotHead isSpace (word ++ rest) := by
        cases hcase : word with
        | nil => exact absurd hcase hword.ne_nil
        | cons c cs =>
            exact notHead_cons.mpr (hword.solid c (by rw [hcase]; exact List.mem_cons_self ..))
      rw [skipSpace_append hspace, Stdio.skipSpace, dropWhile_of_notHead hhead]
      exact .cons (List.forall_mem_nil _) hword hrest hwords

/-- The next word, and what is left. -/
theorem PrintsWords.next {word : List Char} {words : List (List Char)} {text : List Char}
    (h : PrintsWords (word :: words) text) :
    ∃ rest, Stdio.skipSpace text = Stdio.skipSpace (word ++ rest) ∧ IsWord word ∧
      NotHead (fun c => !isSpace c) rest ∧ PrintsWords words rest := by
  cases h with
  | cons hspace hword hrest hwords =>
      exact ⟨_, skipSpace_append hspace _, hword, hrest, hwords⟩

end Stdio
