import Hdh.Process.RoundTrip

/-!
# Incomplete programs

The loop of `load` takes as many turns as the header announces.  Where the text has no more
words, a turn finds the word of the turn before in its buffer; where a number is missing,
the argument is not assigned.  Only `get_opcode` ends the program, on a word that is no
opcode.

Main results:

- Theorem `printsLines_take`: a text that is cut anywhere still prints lines.
- Theorem `load_rejects_iff`: which incomplete programs are rejected.
-/

namespace Hdh
namespace Process

open Stdio

/-! ## Incomplete programs -/

/-- The line is a whole instruction. -/
def Line.Complete (l : Line) : Prop :=
  ∃ op : InsOpcode, l.word = op.opt ∧ (op = .syscall ∨ l.args.length = op.arity)

/-- There are fewer lines than announced, or one of those that are is no whole
instruction. -/
def Incomplete (count : Nat) (ls : List Line) : Prop :=
  ls.length < count ∨ ∃ l ∈ ls.take count, ¬ l.Complete

/-! ## Texts that have been cut -/

/-- A line that is cut behind its first character is a line. -/
theorem PrintsLine.take {l : Line} {text : List Char} (h : PrintsLine l text)
    (hl : l.Proper) {k : Nat} (hk : 0 < k) :
    ∃ l' : Line, PrintsLine l' (text.take k) ∧ l'.Proper := by
  obtain ⟨numbers, blanks, hnumbers, hblanks, rfl, hlength⟩ := h
  have hshort : ((l.word ++ (numbers ++ blanks)).take k).length < 200 :=
    Nat.lt_of_le_of_lt (List.length_take_le' ..) hlength
  by_cases hcut : k < l.word.length
  · -- a word that has lost its end
    rw [List.take_append_of_le_length (Nat.le_of_lt hcut)] at hshort ⊢
    refine ⟨⟨l.word.take k, []⟩, ⟨[], [], .nil, by simp, by simp, hshort⟩, ⟨⟨?_, ?_⟩, ?_, ?_⟩, ?_⟩
    · simpa [hl.word.ne_nil] using Nat.ne_of_gt hk
    · exact fun c hc => hl.word.solid c (List.mem_of_mem_take hc)
    · exact Nat.lt_of_le_of_lt (List.length_take_le' ..) hl.length
    · intro c hc
      rw [List.head?_take, if_neg (Nat.ne_of_gt hk)] at hc
      exact hl.letter c hc
    · exact fun _ _ => Nat.zero_le _
  · have hword : (l.word ++ (numbers ++ blanks)).take k =
        l.word ++ (numbers ++ blanks).take (k - l.word.length) := by
      rw [List.take_append, List.take_of_length_le (Nat.not_lt.mp hcut)]
    obtain ⟨ms, numbers', blanks', heq, hprints, hblanks', hfew, hle⟩ :=
      hnumbers.take (k - l.word.length)
    have hvalues : (ms.map (BitVec.ofNat 64)).map BitVec.toNat = ms := by
      rw [List.map_map]
      refine (List.map_congr_left fun m hm => ?_).trans (List.map_id ms)
      obtain ⟨n, hn, hmn⟩ := hle m hm
      obtain ⟨a, -, rfl⟩ := List.mem_map.mp hn
      exact (BitVec.toNat_ofNat m 64).trans (Nat.mod_eq_of_lt (Nat.lt_of_le_of_lt hmn a.isLt))
    rw [List.length_map] at hfew
    refine ⟨⟨l.word, ms.map (BitVec.ofNat 64)⟩,
      ⟨numbers', blanks' ++ blanks.take (k - l.word.length - numbers.length), ?_, ?_, ?_,
        hshort⟩, ⟨hl.word, hl.length, hl.letter⟩, ?_⟩
    · rw [hvalues]
      exact hprints
    · intro c hc
      rcases List.mem_append.mp hc with hc | hc
      · exact hblanks' c hc
      · exact hblanks c (List.mem_of_mem_take hc)
    · rw [hword, List.take_append, heq, List.append_assoc]
    · intro op hop
      rw [List.length_map]
      exact Nat.le_trans hfew (hl.arity op hop)

/-- One line that is cut anywhere. -/
theorem printsLines_single {l : Line} {text : List Char} (h : PrintsLine l text)
    (hl : l.Proper) (k : Nat) :
    ∃ ls', PrintsLines true ls' (text.take k) ∧ ∀ l ∈ ls', l.Proper := by
  rcases Nat.eq_zero_or_pos k with rfl | hk
  · exact ⟨[], .nil, by simp⟩
  · obtain ⟨l', hprints, hproper⟩ := h.take hl hk
    exact ⟨[l'], .last rfl hprints, by simpa using hproper⟩

/-- A text that is cut anywhere still prints lines. -/
theorem printsLines_take {cut : Bool} {ls : List Line} {body : List Char}
    (h : PrintsLines cut ls body) (hls : ∀ l ∈ ls, l.Proper) (k : Nat) :
    ∃ ls', PrintsLines true ls' (body.take k) ∧ ∀ l ∈ ls', l.Proper := by
  induction h generalizing k with
  | nil => exact ⟨[], by rw [List.take_nil]; exact .nil, by simp⟩
  | @line l ls text rest htext _ ih =>
      have hl := hls l (List.mem_cons_self ..)
      by_cases hcut : k ≤ text.length
      · rw [List.take_append_of_le_length hcut]
        exact printsLines_single htext hl k
      · obtain ⟨ls', hprints, hproper⟩ :=
          ih (fun l hl => hls l (List.mem_cons_of_mem _ hl)) (k - text.length - 1)
        refine ⟨l :: ls', ?_, List.forall_mem_cons.mpr ⟨hl, hproper⟩⟩
        rw [List.take_append, List.take_of_length_le (by omega), List.take_cons (by omega)]
        exact .line htext hprints
  | last _ htext => exact printsLines_single htext (hls _ (List.mem_cons_self ..)) k

/-! ## The end of the text -/

/-- The word of the turn before is an opcode, if there was one. -/
def LoadSt.Stale (st : LoadSt) : Prop :=
  ∀ word, st.opcode = some word → ∃ op : InsOpcode, word = op.opt

/-- What is left is white space. -/
theorem takeLine_end (n : Nat) {s : List Char} (hs : skipSpace s = []) :
    skipSpace (takeLine n s).2 = [] := by
  have hall : ∀ c ∈ s, isSpace c = true := List.dropWhile_eq_nil_iff.mp hs
  have hsuffix : ∀ c ∈ (takeLine n s).2, c ∈ s := by
    clear hs hall
    induction n generalizing s with
    | zero => exact fun c hc => hc
    | succ n ih =>
        cases s with
        | nil => exact fun c hc => hc
        | cons d s =>
            intro c hc
            rw [takeLine] at hc
            split_ifs at hc with hd
            · exact List.mem_cons_of_mem _ hc
            · exact List.mem_cons_of_mem _ (ih c hc)
  exact List.dropWhile_eq_nil_iff.mpr fun c hc => hall c (hsuffix c hc)

/-- `sscanf` leaves the file. -/
theorem scanBuf_eq {buf : List Char} {st st' : LoadSt} {ns : List Nat}
    (h : scanBuf buf st = .ok (ns, st')) : st' = st := by
  unfold scanBuf at h
  split at h
  · cases h
    rfl
  · cases h

/-- The word of a turn is in the buffer. -/
theorem readOpcode_opcode {st st' : LoadSt} {word : List Char}
    (h : readOpcode st = .ok (word, st')) : st'.opcode = some word := by
  unfold readOpcode at h
  split at h
  · split at h
    · cases h
      rfl
    · cases h
  · split at h
    · cases h
      assumption
    · cases h

/-- Reading arguments leaves the word in the buffer. -/
theorem readArgs_opcode {op : InsOpcode} {st st' : LoadSt} {ns : List Nat}
    (h : readArgs op st = .ok (ns, st')) : st'.opcode = st.opcode := by
  unfold readArgs at h
  split at h
  · cases h
    rfl
  · split at h
    · rw [scanBuf_eq h]
    · split at h
      · rw [scanBuf_eq h]
      · cases h
  all_goals
    split at h
    · cases h
      rfl
    · cases h

/-- Behind a turn of the loop, the word in the buffer is an opcode. -/
theorem readInst_stale {st st' : LoadSt} {inst : Inst (Option Arg)}
    (h : readInst st = .ok (inst, st')) : st'.Stale := by
  unfold readInst at h
  split at h
  · cases h
  · rename_i word st₁ hword
    split at h
    · cases h
    · rename_i op hop
      split at h
      · cases h
      · rename_i ns st₂ hargs
        obtain ⟨-, rfl⟩ := Prod.mk.inj (Except.ok.inj h)
        intro word' hword'
        rw [readArgs_opcode hargs, readOpcode_opcode hword] at hword'
        cases hword'
        by_contra hnone
        push Not at hnone
        rw [getOpcode_unknown hnone] at hop
        cases hop

/-- Reading arguments where nothing is left reads none, and leaves nothing. -/
theorem readArgs_end {op : InsOpcode} {st st' : LoadSt} {ns : List Nat}
    (hfile : skipSpace st.file = []) (h : readArgs op st = .ok (ns, st')) :
    skipSpace st'.file = [] := by
  have hend : NumberEnd [] := ⟨notHead_nil _, notHead_nil _⟩
  have hscanf : ∃ file, scanf 64 op.format st.file = some ([], file) ∧
      skipSpace file = [] := by
    obtain ⟨file, hscan, hleft⟩ := scanf_numbers (w := 64) op.format .nil (by simp)
      (Nat.zero_le _) hend hfile
    exact ⟨file, hscan, hleft⟩
  cases op with
  | «calc» =>
      cases h
      exact hfile
  | syscall =>
      rw [readArgs] at h
      split at h
      · rename_i line file hline
        rw [scanBuf_eq h]
        unfold fgets at hline
        split_ifs at hline
        have hrest : (takeLine (200 - 1) st.file).2 = file :=
          congrArg Prod.snd (Option.some_inj.mp hline)
        rw [← hrest]
        exact takeLine_end _ hfile
      · split at h
        · rw [scanBuf_eq h]
          exact hfile
        · cases h
  | alloc | free | read | write =>
      obtain ⟨file, hscan, hleft⟩ := hscanf
      simp only [readArgs, hscan] at h
      cases h
      exact hleft

/-! ## Turns that do not end the program -/

/-- A turn whose word is an opcode does not end the program. -/
theorem readInst_of_opcode {st st₁ : LoadSt} {word : List Char} {op : InsOpcode}
    (hword : readOpcode st = .ok (word, st₁)) (hop : getOpcode word = .ok op) :
    readInst st ≠ .error .exit ∧
      ∀ inst st', readInst st = .ok (inst, st') → ∃ ns, readArgs op st₁ = .ok (ns, st') := by
  simp only [readInst, hword, hop]
  cases hargs : readArgs op st₁ with
  | error stop =>
      have hne := readArgs_ne_exit op st₁
      rw [hargs] at hne
      refine ⟨fun heq => hne (congrArg _ (Except.error.inj heq)), ?_⟩
      intro inst st' h
      cases h
  | ok r =>
      refine ⟨by simp, ?_⟩
      intro inst st' h
      obtain ⟨-, rfl⟩ := Prod.mk.inj (Except.ok.inj h)
      exact ⟨r.1, rfl⟩

theorem readText_succ_ne_exit {n : Nat} {st : LoadSt} (hinst : readInst st ≠ .error .exit)
    (htext : ∀ inst st', readInst st = .ok (inst, st') → readText n st' ≠ .error .exit) :
    readText (n + 1) st ≠ .error .exit := by
  cases hturn : readInst st with
  | error stop =>
      rw [hturn] at hinst
      simp only [readText, hturn]
      exact fun heq => hinst (congrArg _ (Except.error.inj heq))
  | ok r =>
      obtain ⟨inst, st'⟩ := r
      have hrest := htext inst st' hturn
      simp only [readText, hturn]
      cases hmore : readText n st' with
      | error stop =>
          rw [hmore] at hrest
          exact fun heq => hrest (congrArg _ (Except.error.inj heq))
      | ok text => simp

/-- Nothing at the end of the text ends the program: the word of the turn before is read
once more. -/
theorem readText_end (n : Nat) {st : LoadSt} (hfile : skipSpace st.file = [])
    (hstale : st.Stale) : readText n st ≠ .error .exit := by
  induction n generalizing st with
  | zero => simp [readText]
  | succ n ih =>
      cases hop : st.opcode with
      | none =>
          have hword : readOpcode st = .error .undefined := by
            rw [readOpcode, scanWord_end hfile]
            simp only [hop]
          simp [readText, readInst, hword]
      | some word =>
          obtain ⟨op, rfl⟩ := hstale word hop
          have hword : readOpcode st = .ok (op.opt, { st with file := [] }) := by
            rw [readOpcode, scanWord_end hfile]
            simp only [hop]
          obtain ⟨hne, hnext⟩ := readInst_of_opcode hword (getOpcode_opt op)
          refine readText_succ_ne_exit hne fun inst st' hturn => ?_
          obtain ⟨ns, hargs⟩ := hnext inst st' hturn
          have hempty : skipSpace ({ st with file := [] } : LoadSt).file = [] := rfl
          exact ih (readArgs_end hempty hargs) (readInst_stale hturn)

/-- The last line, when its end has been cut: its turn leaves nothing of the text. -/
theorem readArgs_last {op : InsOpcode} {st st' : LoadSt} {args : List Arg} {ns : List Nat}
    {numbers blanks : List Char} (hfile : st.file = numbers ++ blanks)
    (hprints : PrintsNumbers (args.map BitVec.toNat) numbers)
    (hblanks : ∀ c ∈ blanks, isBlank c = true) (harity : args.length ≤ op.arity)
    (hlength : (numbers ++ blanks).length < 200) (h : readArgs op st = .ok (ns, st')) :
    skipSpace st'.file = [] := by
  have hend : NumberEnd blanks := by
    have hnil : NumberEnd [] := ⟨notHead_nil _, notHead_nil _⟩
    have happend := hnil.append hblanks
    rwa [List.append_nil] at happend
  have hspace : skipSpace blanks = [] :=
    List.dropWhile_eq_nil_iff.mpr fun c hc => isSpace_of_isBlank (hblanks c hc)
  have hscanf : ∃ file, scanf 64 op.format st.file = some (args.map BitVec.toNat, file) ∧
      skipSpace file = [] := by
    obtain ⟨file, hscan, hleft⟩ := scanf_numbers op.format hprints (args_lt args)
      (by rw [List.length_map]; exact harity) hend (congrArg skipSpace hfile)
    exact ⟨file, hscan, hleft.trans hspace⟩
  cases op with
  | «calc» =>
      obtain ⟨file, hscan, hleft⟩ := hscanf
      obtain ⟨-, rfl⟩ := Prod.mk.inj (Option.some_inj.mp hscan)
      cases h
      exact hleft
  | syscall =>
      by_cases hnil : numbers ++ blanks = []
      · -- `fgets` finds the end of the file, and the line before is still in `buf`
        rw [hnil] at hfile
        exact readArgs_end (by rw [hfile]; rfl) h
      · rw [readArgs, hfile, fgets_last (args_ne_newline hprints hblanks) hlength hnil] at h
        rw [scanBuf_eq h]
        rfl
  | alloc | free | read | write =>
      obtain ⟨file, hscan, hleft⟩ := hscanf
      simp only [readArgs, hscan] at h
      cases h
      exact hleft

/-! ## Words that are no opcodes -/

/-- One turn of the loop on a line that begins with an opcode: it does not end the program,
goes on with the lines behind it, and is defined when there are any. -/
theorem readInst_spelled {op : InsOpcode} {l : Line} {ls : List Line} {body : List Char}
    {st : LoadSt} {cut : Bool} (hbody : PrintsLines cut (l :: ls) body)
    (hls : ∀ l' ∈ l :: ls, l'.Proper) (hop : l.word = op.opt)
    (hfile : skipSpace st.file = skipSpace body) :
    readInst st ≠ .error .exit ∧
      (∀ inst st', readInst st = .ok (inst, st') →
        ∃ rest, PrintsLines cut ls rest ∧ skipSpace st'.file = skipSpace rest) ∧
      (ls ≠ [] → ∃ inst st', readInst st = .ok (inst, st')) := by
  obtain ⟨hl, hrestls⟩ := List.forall_mem_cons.mp hls
  have harity := hl.arity op hop
  obtain ⟨word, args⟩ := l
  obtain rfl : word = op.opt := hop
  rcases printsLines_cons hbody with ⟨text, rest, rfl, htext, hrest⟩ | ⟨-, rfl, htext⟩
  · obtain ⟨hspace, hletter⟩ := hrest.notHead fun l hl => (hrestls l hl).toBegins
    obtain ⟨st', hinst, hleft⟩ := readInst_line htext harity hspace hletter hfile
    refine ⟨by simp [hinst], fun inst st₁ hturn => ?_, fun _ => ⟨_, _, hinst⟩⟩
    rw [hinst] at hturn
    obtain ⟨-, rfl⟩ := Prod.mk.inj (Except.ok.inj hturn)
    exact ⟨rest, hrest, hleft⟩
  · obtain ⟨numbers, blanks, hnumbers, hblanks, rfl, hlength⟩ := htext
    have hsolid := notHead_solid hnumbers hblanks (notHead_nil _)
    rw [List.append_nil] at hsolid
    have hword := readOpcode_word (isWord_opt op) (length_opt op) hsolid hfile
    obtain ⟨hne, hnext⟩ := readInst_of_opcode hword (getOpcode_opt op)
    refine ⟨hne, fun inst st₁ hturn => ?_, fun hnil => absurd rfl hnil⟩
    obtain ⟨ns, hargs⟩ := hnext inst st₁ hturn
    simp only [List.length_append] at hlength
    exact ⟨[], .nil, readArgs_last rfl hnumbers hblanks harity
      (by rw [List.length_append]; omega) hargs⟩

/-- Lines that begin with opcodes do not end the program, whatever is missing of them. -/
theorem readText_ne_exit (n : Nat) {ls : List Line} {body : List Char} {st : LoadSt}
    {cut : Bool} (hbody : PrintsLines cut ls body) (hls : ∀ l ∈ ls, l.Proper)
    (hspelled : ∀ l ∈ ls.take n, ∃ op : InsOpcode, l.word = op.opt)
    (hfile : skipSpace st.file = skipSpace body) (hstale : st.Stale) :
    readText n st ≠ .error .exit := by
  induction n generalizing ls body st with
  | zero => simp [readText]
  | succ n ih =>
      cases ls with
      | nil =>
          cases hbody
          exact readText_end (n + 1) hfile hstale
      | cons l ls =>
          obtain ⟨⟨op, hop⟩, hlater⟩ := List.forall_mem_cons.mp hspelled
          obtain ⟨hne, hnext, -⟩ := readInst_spelled hbody hls hop hfile
          refine readText_succ_ne_exit hne fun inst st' hturn => ?_
          obtain ⟨rest, hrest, hleft⟩ := hnext inst st' hturn
          exact ih hrest (List.forall_mem_cons.mp hls).2 hlater hleft (readInst_stale hturn)

/-- A turn of the loop begins with the word of the first line. -/
theorem readOpcode_lines {l : Line} {ls : List Line} {body : List Char} {st : LoadSt}
    {cut : Bool} (hbody : PrintsLines cut (l :: ls) body) (hl : l.Begins)
    (hfile : skipSpace st.file = skipSpace body) :
    ∃ s, readOpcode st = .ok (l.word, { st with opcode := some l.word, file := s }) := by
  rcases printsLines_cons hbody with ⟨text, rest, rfl, htext, -⟩ | ⟨-, rfl, htext⟩
  · obtain ⟨numbers, blanks, hnumbers, hblanks, rfl, -⟩ := htext
    have hsolid := notHead_solid hnumbers hblanks (s := '\n' :: rest) (notHead_cons.mpr rfl)
    simp only [List.append_assoc] at hfile
    exact ⟨_, readOpcode_word hl.word hl.length hsolid hfile⟩
  · obtain ⟨numbers, blanks, hnumbers, hblanks, rfl, -⟩ := htext
    have hsolid := notHead_solid hnumbers hblanks (notHead_nil _)
    rw [List.append_nil] at hsolid
    exact ⟨_, readOpcode_word hl.word hl.length hsolid hfile⟩

/-- A line that begins with another word ends the program. -/
theorem readText_exit (n : Nat) {ls : List Line} {body : List Char} {st : LoadSt}
    {cut : Bool} (hbody : PrintsLines cut ls body) (hls : ∀ l ∈ ls, l.Proper)
    (hunknown : ∃ l ∈ ls.take n, ∀ op : InsOpcode, l.word ≠ op.opt)
    (hfile : skipSpace st.file = skipSpace body) : readText n st = .error .exit := by
  induction n generalizing ls body st with
  | zero => simp at hunknown
  | succ n ih =>
      cases ls with
      | nil => simp at hunknown
      | cons l ls =>
          obtain ⟨hl, hrestls⟩ := List.forall_mem_cons.mp hls
          by_cases hspelled : ∃ op : InsOpcode, l.word = op.opt
          · obtain ⟨op, hop⟩ := hspelled
            have hlater : ∃ l ∈ ls.take n, ∀ op : InsOpcode, l.word ≠ op.opt := by
              obtain ⟨l', hl', hnone⟩ := hunknown
              rcases List.mem_cons.mp hl' with rfl | hl'
              · exact absurd hop (hnone op)
              · exact ⟨l', hl', hnone⟩
            have hmore : ls ≠ [] := by
              rintro rfl
              simp at hlater
            obtain ⟨-, hnext, hends⟩ := readInst_spelled hbody hls hop hfile
            obtain ⟨inst, st', hturn⟩ := hends hmore
            obtain ⟨rest, hrest, hleft⟩ := hnext inst st' hturn
            simp only [readText, hturn, ih hrest hrestls hlater hleft]
          · have hopcode : getOpcode l.word = .error .exit :=
              getOpcode_unknown fun op hop => hspelled ⟨op, hop⟩
            obtain ⟨s, hword⟩ := readOpcode_lines hbody hl.toBegins hfile
            have hturn : readInst st = .error .exit := by
              simp only [readInst, hword, hopcode]
            simp only [readText, hturn]

/-! ## Whole programs -/

/-- One of the lines that the loop takes begins with a word that is no opcode. -/
def Misspelled (count : Nat) (ls : List Line) : Prop :=
  ∃ l ∈ ls.take count, ∀ op : InsOpcode, l.word ≠ op.opt

/-- A program is rejected if and only if its header is read and the loop takes a line that
begins with no opcode.  Such a program is incomplete; no other incomplete one is
rejected. -/
theorem load_rejects_iff (availPid : BitVec 32) (path : List Char) (priority : BitVec 32)
    {cut : Bool} {count : Nat} {ls : List Line} {file : List Char}
    (hls : ∀ l ∈ ls, l.Proper) (hfile : PrintsFile cut priority.toNat count ls file) :
    (load availPid path (some file) = .error .exit ↔
        count < 2 ^ 32 ∧ Misspelled count ls) ∧
      (Misspelled count ls → Incomplete count ls) := by
  obtain ⟨body, hbody, hheader, hoverflow⟩ :=
    scanf_header hfile priority.isLt fun l hl => (hls l hl).toBegins
  refine ⟨?_, ?_⟩
  · by_cases hcount : count < 2 ^ 32
    · obtain ⟨rest, hrest, hscan⟩ := hheader hcount
      simp only [load, hscan, hcount, true_and]
      by_cases hunknown : Misspelled count ls
      · rw [readText_exit count hbody hls hunknown hrest]
        simp only [hunknown]
      · have hspelled : ∀ l ∈ ls.take count, ∃ op : InsOpcode, l.word = op.opt := by
          unfold Misspelled at hunknown
          push Not at hunknown
          exact hunknown
        have hstart : skipSpace (⟨none, none, rest⟩ : LoadSt).file = skipSpace body := hrest
        have hstale : (⟨none, none, rest⟩ : LoadSt).Stale := fun word hword => by cases hword
        have hne := readText_ne_exit count hbody hls hspelled hstart hstale
        cases htext : readText count ⟨none, none, rest⟩ with
        | error stop =>
            rw [htext] at hne
            simpa [hunknown] using hne
        | ok text => simp [hunknown]
    · simp only [load, hoverflow (Nat.not_lt.mp hcount), hcount, false_and]
      simp
  · rintro ⟨l, hl, hword⟩
    refine Or.inr ⟨l, hl, ?_⟩
    rintro ⟨op, hop, -⟩
    exact hword op hop

/-- The second line has lost the end of its word. -/
def cutFile : List Char :=
  ['1', ' ', '2', '\n', 'c', 'a', 'l', 'c', '\n', 'a', 'l']

def cutLines : List Line :=
  [⟨InsOpcode.opt .calc, []⟩, ⟨['a', 'l'], []⟩]

theorem cutLines_proper : ∀ l ∈ cutLines, l.Proper := by
  intro l hl
  rcases List.mem_cons.mp hl with rfl | hl
  · exact ⟨begins_opt .calc [], fun _ _ => Nat.zero_le _⟩
  · rw [List.mem_singleton] at hl
    subst hl
    exact ⟨⟨⟨by simp, by simp; decide⟩, by decide, by simp [NotHead]⟩,
      fun _ _ => Nat.zero_le _⟩

theorem prints_cutFile : PrintsFile true 1 2 cutLines cutFile :=
  ⟨[' '], _, InsOpcode.opt .calc ++ '\n' :: ['a', 'l'], rfl, by simp, by simp; rfl,
    .line ⟨[], [], .nil, by simp, rfl, by decide⟩
      (.last rfl ⟨[], [], .nil, by simp, rfl, by decide⟩), Or.inl rfl⟩

theorem load_rejects_cutFile :
    (load 1 [] (some cutFile) = .error .exit ↔ 2 < 2 ^ 32 ∧ Misspelled 2 cutLines) ∧
      (Misspelled 2 cutLines → Incomplete 2 cutLines) :=
  load_rejects_iff 1 [] 1 cutLines_proper prints_cutFile

/-- One line of the two that are announced. -/
def shortFile : List Char :=
  ['1', ' ', '2', '\n', 'a', 'l', 'l', 'o', 'c', ' ', '1', '0', ' ', '2', '0', '\n']

/-- The line of `alloc` is there once, and becomes two instructions; the second one has
arguments that have not been read. -/
theorem not_load_rejects :
    ¬ ∀ (availPid : BitVec 32) (path : List Char) (priority : BitVec 32) (cut : Bool)
      (count : Nat) (ls : List Line) (file : List Char), (∀ l ∈ ls, l.Proper) →
      PrintsFile cut priority.toNat count ls file → Incomplete count ls →
      ∀ pcb next, load availPid path (some file) ≠ .ok (pcb, next) := by
  intro hclaim
  have hproper : ∀ l ∈ [(⟨InsOpcode.opt .alloc, [10, 20]⟩ : Line)], l.Proper := by
    intro l hl
    rw [List.mem_singleton] at hl
    subst hl
    refine ⟨begins_opt .alloc _, fun op hop => ?_⟩
    cases op <;> first | decide | exact absurd hop (by decide)
  have hprints : PrintsFile false (1 : BitVec 32).toNat 2
      [(⟨InsOpcode.opt .alloc, [10, 20]⟩ : Line)] shortFile :=
    ⟨[' '], _, _, rfl, by simp, by simp; rfl,
      .line ⟨printNumbers [10, 20], [], prints_printNumbers [10, 20], by simp, rfl, by decide⟩
        .nil, Or.inl rfl⟩
  exact hclaim 1 [] 1 false 2 _ shortFile hproper hprints (Or.inl (by decide)) _ _ rfl

end Process
end Hdh
