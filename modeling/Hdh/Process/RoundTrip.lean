import Hdh.Process.Loader

/-!
# Written programs

A program file has a header and one instruction in each line.  The formats of `fscanf` and
the lines of `fgets` do not stop at the same places; but what the loop of `load` leaves of
a line is white space, whatever the instruction and the next one are.

Main results:

- Theorem `readInst_line`: what one turn of the loop does to a line.
- Theorem `load_reads_back`: a file of fewer than 2^32 instructions is read back as it has
  been written.
-/

namespace Hdh
namespace Process

open Stdio

/-! ## Lines -/

/-- A line of a program: a word, and numbers behind it. -/
structure Line where
  word : List Char
  args : List Arg
deriving DecidableEq

/-- A text of fewer than 200 characters that prints the line, without its end.  Blanks
separate the numbers, and may follow them. -/
def PrintsLine (l : Line) (text : List Char) : Prop :=
  ∃ numbers blanks, PrintsNumbers (l.args.map BitVec.toNat) numbers ∧
    (∀ c ∈ blanks, isBlank c = true) ∧ text = l.word ++ (numbers ++ blanks) ∧
    text.length < 200

/-- A text that prints lines; when it has been cut, the last line may lack its end. -/
inductive PrintsLines (cut : Bool) : List Line → List Char → Prop
  | nil : PrintsLines cut [] []
  | line {l : Line} {ls : List Line} {text rest : List Char} : PrintsLine l text →
      PrintsLines cut ls rest → PrintsLines cut (l :: ls) (text ++ '\n' :: rest)
  | last {l : Line} {text : List Char} : cut = true → PrintsLine l text →
      PrintsLines cut [l] text

/-- A file whose header announces `count` instructions; when it has been cut, the header
may lack its end as well. -/
def PrintsFile (cut : Bool) (priority count : Nat) (ls : List Line) (file : List Char) :
    Prop :=
  ∃ blanks tail body, file =
      Nat.toDigits 10 priority ++ (blanks ++ (Nat.toDigits 10 count ++ tail)) ∧
    blanks ≠ [] ∧ (∀ c ∈ blanks, isBlank c = true) ∧ PrintsLines cut ls body ∧
    (tail = '\n' :: body ∨ (cut = true ∧ tail = [] ∧ body = []))

/-- A word that cannot be mistaken for a number, and that fits the buffer `opcode`. -/
structure Line.Begins (l : Line) : Prop where
  word : IsWord l.word
  length : l.word.length < 10
  letter : NotHead (fun c => c.isDigit || c == '-' || c == '+') l.word

/-- The numbers of an instruction are no more than it takes. -/
structure Line.Proper (l : Line) : Prop extends l.Begins where
  arity : ∀ op : InsOpcode, l.word = op.opt → l.args.length ≤ op.arity

theorem begins_opt (op : InsOpcode) (args : List Arg) :
    (⟨op.opt, args⟩ : Line).Begins where
  word := isWord_opt op
  length := length_opt op
  letter := by cases op <;> simp [NotHead, InsOpcode.opt]

/-- The first line of a text has an end, or is the last one of a text that has been cut. -/
theorem printsLines_cons {cut : Bool} {l : Line} {ls : List Line} {body : List Char}
    (h : PrintsLines cut (l :: ls) body) :
    (∃ text rest, body = text ++ '\n' :: rest ∧ PrintsLine l text ∧
        PrintsLines cut ls rest) ∨ (cut = true ∧ ls = [] ∧ PrintsLine l body) := by
  cases h with
  | line htext hrest => exact Or.inl ⟨_, _, rfl, htext, hrest⟩
  | last hcut htext => exact Or.inr ⟨hcut, rfl, htext⟩

/-- Lines begin with a letter, if there are any. -/
theorem PrintsLines.notHead {cut : Bool} {ls : List Line} {body : List Char}
    (h : PrintsLines cut ls body) (hls : ∀ l ∈ ls, l.Begins) :
    NotHead isSpace body ∧ NotHead (fun c => c.isDigit || c == '-' || c == '+') body := by
  have hline : ∀ {l : Line} {text : List Char} (s : List Char), PrintsLine l text →
      l.Begins → NotHead isSpace (text ++ s) ∧
        NotHead (fun c => c.isDigit || c == '-' || c == '+') (text ++ s) := by
    rintro l text s ⟨numbers, blanks, -, -, rfl, -⟩ hl
    cases hword : l.word with
    | nil => exact absurd hword hl.word.ne_nil
    | cons c cs =>
        have hletter := hl.letter
        rw [hword] at hletter
        exact ⟨notHead_cons.mpr (hl.word.solid c (by rw [hword]; exact List.mem_cons_self ..)),
          notHead_cons.mpr (notHead_cons.mp hletter)⟩
  cases h with
  | nil => exact ⟨notHead_nil _, notHead_nil _⟩
  | line htext _ => exact hline _ htext (hls _ (List.mem_cons_self ..))
  | last _ htext =>
      have hlast := hline [] htext (hls _ (List.mem_cons_self ..))
      rwa [List.append_nil] at hlast

/-! ## One turn of the loop -/

/-- No number goes on behind the end of a line. -/
theorem numberEnd_newline {rest : List Char} (hspace : NotHead isSpace rest)
    (hletter : NotHead (fun c => c.isDigit || c == '-' || c == '+') rest) :
    NumberEnd ('\n' :: rest) where
  digit := notHead_cons.mpr rfl
  next := by
    have hskip : skipSpace ('\n' :: rest) = rest :=
      (skipSpace_newline rest).trans (dropWhile_of_notHead hspace)
    rwa [hskip]

/-- The arguments of a line fit their type. -/
theorem args_lt (args : List Arg) : ∀ n ∈ args.map BitVec.toNat, n < 2 ^ 64 := by
  intro n hn
  obtain ⟨a, -, rfl⟩ := List.mem_map.mp hn
  exact a.isLt

/-- The arguments of a line stay in it. -/
theorem args_ne_newline {ns : List Nat} {numbers blanks : List Char}
    (hprints : PrintsNumbers ns numbers) (hblanks : ∀ c ∈ blanks, isBlank c = true) :
    ∀ c ∈ numbers ++ blanks, c ≠ '\n' := by
  intro c hc
  rcases List.mem_append.mp hc with hc | hc
  · exact hprints.ne_newline c hc
  · exact ne_newline_of_isBlank (hblanks c hc)

/-- A word that fits the buffer is read. -/
theorem readOpcode_word {st : LoadSt} {word s : List Char} (hword : IsWord word)
    (hlength : word.length < 10) (hs : NotHead (fun c => !isSpace c) s)
    (hfile : skipSpace st.file = skipSpace (word ++ s)) :
    readOpcode st = .ok (word, { st with opcode := some word, file := s }) := by
  rw [readOpcode, scanWord_append hword hs hfile]
  simp only [hlength, if_true]

/-- The numbers of a line are read, and nothing but white space is left of it. -/
theorem readArgs_line {op : InsOpcode} {st : LoadSt} {args : List Arg}
    {numbers blanks rest : List Char} (hfile : st.file = (numbers ++ blanks) ++ '\n' :: rest)
    (hprints : PrintsNumbers (args.map BitVec.toNat) numbers)
    (hblanks : ∀ c ∈ blanks, isBlank c = true) (harity : args.length ≤ op.arity)
    (hlength : (numbers ++ blanks).length + 1 < 200) (hend : NumberEnd ('\n' :: rest)) :
    ∃ st', readArgs op st = .ok (args.map BitVec.toNat, st') ∧
      skipSpace st'.file = skipSpace rest := by
  have hcount : (args.map BitVec.toNat).length ≤ op.format.count .number := by
    rw [List.length_map]
    exact harity
  have hspace : skipSpace (blanks ++ '\n' :: rest) = skipSpace rest :=
    (skipSpace_append (fun c hc => isSpace_of_isBlank (hblanks c hc)) _).trans
      (skipSpace_newline rest)
  -- what `fscanf` does with the arguments of an opcode
  have hscanf : ∃ file, scanf 64 op.format st.file = some (args.map BitVec.toNat, file) ∧
      skipSpace file = skipSpace rest := by
    rw [List.append_assoc] at hfile
    obtain ⟨file, hscan, hleft⟩ :=
      scanf_numbers op.format hprints (args_lt args) hcount (hend.append hblanks)
        (congrArg skipSpace hfile)
    exact ⟨file, hscan, hleft.trans hspace⟩
  cases op with
  | «calc» =>
      obtain ⟨file, hscan, hleft⟩ := hscanf
      obtain ⟨hnil, rfl⟩ := Prod.mk.inj (Option.some_inj.mp hscan)
      exact ⟨st, by rw [readArgs, ← hnil], hleft⟩
  | syscall =>
      obtain ⟨left, hscan, -⟩ := scanf_numbers (InsOpcode.format .syscall) hprints
        (args_lt args) hcount
        ((numberEnd_newline (notHead_nil _) (notHead_nil _)).append hblanks) rfl
      refine ⟨{ st with buf := some ((numbers ++ blanks) ++ ['\n']), file := rest }, ?_, rfl⟩
      rw [readArgs, hfile, fgets_line (args_ne_newline hprints hblanks) hlength rest]
      rw [← List.append_assoc] at hscan
      simp only [scanBuf, hscan]
  | alloc | free | read | write =>
      obtain ⟨file, hscan, hleft⟩ := hscanf
      refine ⟨{ st with file := file }, ?_, hleft⟩
      simp only [readArgs, hscan]

/-- Behind the word of a line, its text goes on with white space. -/
theorem notHead_solid {ns : List Nat} {numbers blanks s : List Char}
    (hprints : PrintsNumbers ns numbers) (hblanks : ∀ c ∈ blanks, isBlank c = true)
    (hs : NotHead (fun c => !isSpace c) s) :
    NotHead (fun c => !isSpace c) (numbers ++ (blanks ++ s)) := by
  have hblank : ∀ c, isBlank c = true → (!isSpace c) = false := fun c hc => by
    rw [isSpace_of_isBlank hc]
    rfl
  refine hprints.notHead hblank ?_
  cases blanks with
  | nil => exact hs
  | cons c cs => exact notHead_cons.mpr (hblank c (hblanks c (List.mem_cons_self ..)))

/-- One turn of the loop reads the instruction of one line. -/
theorem readInst_line {op : InsOpcode} {args : List Arg} {st : LoadSt}
    {text rest : List Char} (hprints : PrintsLine ⟨op.opt, args⟩ text)
    (harity : args.length ≤ op.arity) (hspace : NotHead isSpace rest)
    (hletter : NotHead (fun c => c.isDigit || c == '-' || c == '+') rest)
    (hfile : skipSpace st.file = skipSpace (text ++ '\n' :: rest)) :
    ∃ st', readInst st = .ok (instOf op args, st') ∧ skipSpace st'.file = skipSpace rest := by
  obtain ⟨numbers, blanks, hnumbers, hblanks, rfl, hlength⟩ := hprints
  have hopt : 4 ≤ op.opt.length := by
    cases op <;> decide
  simp only [List.length_append] at hlength
  rw [List.append_assoc] at hfile
  have hsolid := notHead_solid hnumbers hblanks (s := '\n' :: rest) (notHead_cons.mpr rfl)
  rw [← List.append_assoc] at hsolid
  have hword := readOpcode_word (isWord_opt op) (length_opt op) hsolid hfile
  have hread : ({ st with opcode := some op.opt, file := (numbers ++ blanks) ++ '\n' :: rest } :
      LoadSt).file = (numbers ++ blanks) ++ '\n' :: rest := rfl
  obtain ⟨st', hargs, hleft⟩ := readArgs_line hread hnumbers hblanks harity
    (by rw [List.length_append]; omega) (numberEnd_newline hspace hletter)
  refine ⟨st', ?_, hleft⟩
  simp only [readInst, hword, getOpcode_opt, hargs]
  rw [List.map_map]
  have hid : (BitVec.ofNat 64 ∘ BitVec.toNat : Arg → Arg) = id := by
    funext a
    exact (BitVec.ofNat_toNat 64 a).trans (BitVec.setWidth_eq a)
  rw [hid, List.map_id]

/-! ## Whole programs -/

/-- An instruction as it is written: all the arguments that it takes, and for a system call
up to four. -/
structure Written where
  opcode : InsOpcode
  args : List Arg
  arity : args.length ≤ opcode.arity
  complete : opcode = .syscall ∨ args.length = opcode.arity

def Written.line (w : Written) : Line := ⟨w.opcode.opt, w.args⟩

/-- The instruction in memory: each argument in its own position. -/
def Written.inst (w : Written) : Inst (Option Arg) := instOf w.opcode w.args

theorem begins_of_written (prog : List Written) :
    ∀ l ∈ prog.map Written.line, l.Begins := by
  intro l hl
  obtain ⟨w, -, rfl⟩ := List.mem_map.mp hl
  exact begins_opt _ _

/-- The loop reads the instructions of all lines. -/
theorem readText_lines {prog : List Written} {body : List Char} {st : LoadSt}
    (hprints : PrintsLines false (prog.map Written.line) body)
    (hfile : skipSpace st.file = skipSpace body) :
    readText prog.length st = .ok (prog.map Written.inst) := by
  induction prog generalizing body st with
  | nil => rfl
  | cons w prog ih =>
      rcases printsLines_cons hprints with ⟨text, rest, rfl, htext, hrest⟩ | ⟨hcut, -⟩
      · obtain ⟨hspace, hletter⟩ := hrest.notHead (begins_of_written prog)
        obtain ⟨st', hinst, hleft⟩ := readInst_line htext w.arity hspace hletter hfile
        rw [List.length_cons, readText, hinst]
        simp only [ih hrest hleft]
        rfl
      · cases hcut

/-- What stands behind the numbers of a header is the end of the numbers, and then the
lines. -/
theorem header_end {cut : Bool} {ls : List Line} {body tail : List Char}
    (hbody : PrintsLines cut ls body) (hls : ∀ l ∈ ls, l.Begins)
    (htail : tail = '\n' :: body ∨ (cut = true ∧ tail = [] ∧ body = [])) :
    NumberEnd tail ∧ skipSpace tail = skipSpace body := by
  rcases htail with rfl | ⟨-, rfl, rfl⟩
  · obtain ⟨hspace, hletter⟩ := hbody.notHead hls
    exact ⟨numberEnd_newline hspace hletter, skipSpace_newline body⟩
  · exact ⟨⟨notHead_nil _, notHead_nil _⟩, rfl⟩

/-- A header whose numbers fit their types is read. -/
theorem scanf_header_fit {priority count : Nat} {blanks tail : List Char}
    (hpriority : priority < 2 ^ 32) (hcount : count < 2 ^ 32) (hne : blanks ≠ [])
    (hblanks : ∀ c ∈ blanks, isBlank c = true) (hend : NumberEnd tail) :
    ∃ rest, scanf 32 [.number, .space, .number]
        (Nat.toDigits 10 priority ++ (blanks ++ (Nat.toDigits 10 count ++ tail))) =
          some ([priority, count], rest) ∧ skipSpace rest = skipSpace tail := by
  -- the header as numbers, with a blank in front that is skipped
  have hheader : PrintsNumbers [priority, count]
      ([' '] ++ (Nat.toDigits 10 priority ++ (blanks ++ (Nat.toDigits 10 count ++ [])))) :=
    .cons (by simp) (by simp; rfl) (.cons hne hblanks .nil)
  have hfit : ∀ n ∈ [priority, count], n < 2 ^ 32 :=
    List.forall_mem_cons.mpr ⟨hpriority, List.forall_mem_singleton.mpr hcount⟩
  refine scanf_numbers _ hheader hfit (Nat.le_refl 2) hend ?_
  simp only [List.append_assoc, List.append_nil]
  exact (skipSpace_append (by simp; rfl) _).symm

/-- A header whose count does not fit its type is not. -/
theorem scanf_header_overflow {priority count : Nat} {blanks tail : List Char}
    (hpriority : priority < 2 ^ 32) (hcount : 2 ^ 32 ≤ count) (hne : blanks ≠ [])
    (hblanks : ∀ c ∈ blanks, isBlank c = true) (hend : NumberEnd tail) :
    scanf 32 [.number, .space, .number]
      (Nat.toDigits 10 priority ++ (blanks ++ (Nat.toDigits 10 count ++ tail))) = none := by
  have hblank : ∀ c ∈ blanks, isSpace c = true := fun c hc => isSpace_of_isBlank (hblanks c hc)
  have hcounted : PrintsNumbers [count] (blanks ++ (Nat.toDigits 10 count ++ [])) :=
    .cons hne hblanks .nil
  have hdigit : NotHead Char.isDigit (blanks ++ (Nat.toDigits 10 count ++ tail)) := by
    have hnot := hcounted.notHead isDigit_of_isBlank hend.digit
    rwa [List.append_nil, List.append_assoc] at hnot
  have hfirst := scanUnsigned_toDigits 32 (n := priority) hdigit rfl
  have hsecond := scanUnsigned_toDigits 32 (n := count) hend.digit
    ((skipSpace_skipSpace _).trans (skipSpace_append hblank _))
  rw [if_pos hpriority] at hfirst
  rw [if_neg (Nat.not_lt.mpr hcount)] at hsecond
  simp only [scanf, hfirst, hsecond, Option.map_none]

/-- The header of a file is read when the priority and the number of instructions fit
their types. -/
theorem scanf_header {cut : Bool} {priority count : Nat} {ls : List Line} {file : List Char}
    (hprints : PrintsFile cut priority count ls file) (hpriority : priority < 2 ^ 32)
    (hls : ∀ l ∈ ls, l.Begins) :
    ∃ body, PrintsLines cut ls body ∧
      (count < 2 ^ 32 → ∃ rest, skipSpace rest = skipSpace body ∧
        scanf 32 [.number, .space, .number] file = some ([priority, count], rest)) ∧
      (2 ^ 32 ≤ count → scanf 32 [.number, .space, .number] file = none) := by
  obtain ⟨blanks, tail, body, rfl, hne, hblanks, hbody, htail⟩ := hprints
  obtain ⟨hend, hspace⟩ := header_end hbody hls htail
  refine ⟨body, hbody, fun hcount => ?_, fun hcount => ?_⟩
  · obtain ⟨rest, hscan, hrest⟩ := scanf_header_fit hpriority hcount hne hblanks hend
    exact ⟨rest, hrest.trans hspace, hscan⟩
  · exact scanf_header_overflow hpriority hcount hne hblanks hend

/-- `load` returns a process at the beginning of its code, with the priority and exactly
the instructions that are written. -/
def ReadsBack (availPid : BitVec 32) (path : List Char) (priority : BitVec 32)
    (prog : List Written) (file : List Char) : Prop :=
  ∃ pcb next, load availPid path (some file) = .ok (pcb, next) ∧ pcb.pc = 0 ∧
    pcb.priority = priority ∧ pcb.size.toNat = prog.length ∧
    pcb.text = prog.map Written.inst

/-- A program of fewer than 2^32 instructions is read back from every file that prints it. -/
theorem load_reads_back (availPid : BitVec 32) (path : List Char) (priority : BitVec 32)
    {prog : List Written} (hcount : prog.length < 2 ^ 32) {file : List Char}
    (hfile : PrintsFile false priority.toNat prog.length (prog.map Written.line) file) :
    ReadsBack availPid path priority prog file := by
  obtain ⟨body, hbody, hheader, -⟩ :=
    scanf_header hfile priority.isLt (begins_of_written prog)
  obtain ⟨rest, hrest, hscan⟩ := hheader hcount
  have hstart : skipSpace (⟨none, none, rest⟩ : LoadSt).file = skipSpace body := hrest
  have htext := readText_lines hbody hstart
  refine ⟨_, _, by rw [load]; simp only [hscan, htext]; rfl, rfl, ?_, ?_, rfl⟩
  · exact (BitVec.ofNat_toNat 32 priority).trans (BitVec.setWidth_eq priority)
  · exact (BitVec.toNat_ofNat _ _).trans (Nat.mod_eq_of_lt hcount)

/-! ## A printer -/

/-- Numbers with one blank before each. -/
def printNumbers : List Arg → List Char
  | [] => []
  | a :: args => ' ' :: (Nat.toDigits 10 a.toNat ++ printNumbers args)

def printLines : List Written → List Char
  | [] => []
  | w :: prog => (w.opcode.opt ++ printNumbers w.args) ++ '\n' :: printLines prog

/-- The file of a program. -/
def printFile (priority : BitVec 32) (prog : List Written) : List Char :=
  Nat.toDigits 10 priority.toNat ++
    ([' '] ++ (Nat.toDigits 10 prog.length ++ '\n' :: printLines prog))

theorem prints_printNumbers (args : List Arg) :
    PrintsNumbers (args.map BitVec.toNat) (printNumbers args) := by
  induction args with
  | nil => exact .nil
  | cons a args ih =>
      have hblank : ∀ c ∈ [' '], isBlank c = true := by
        simp
        rfl
      exact .cons (by simp : [' '] ≠ []) hblank ih

/-- A printed number has at most 20 digits. -/
theorem length_printNumbers (args : List Arg) :
    (printNumbers args).length ≤ 21 * args.length := by
  induction args with
  | nil => exact Nat.le_refl 0
  | cons a args ih =>
      have hdigits : (Nat.toDigits 10 a.toNat).length ≤ 20 :=
        (Nat.length_toDigits_le_iff (by decide) (by decide)).mpr
          (Nat.lt_of_lt_of_le a.isLt (by decide))
      simp only [printNumbers, List.length_cons, List.length_append]
      omega

theorem prints_printLines (prog : List Written) :
    PrintsLines false (prog.map Written.line) (printLines prog) := by
  induction prog with
  | nil => exact .nil
  | cons w prog ih =>
      refine .line ⟨printNumbers w.args, [], prints_printNumbers w.args, by simp,
        by rw [List.append_nil]; rfl, ?_⟩ ih
      have hopt := length_opt w.opcode
      have harity := w.arity
      have hnumbers := length_printNumbers w.args
      have hmost : w.opcode.arity ≤ 4 := by
        cases w.opcode <;> decide
      rw [List.length_append]
      omega

theorem prints_printFile (priority : BitVec 32) (prog : List Written) :
    PrintsFile false priority.toNat prog.length (prog.map Written.line)
      (printFile priority prog) :=
  ⟨[' '], _, printLines prog, rfl, by simp, by simp; rfl, prints_printLines prog,
    Or.inl rfl⟩

/-- A program with a system call in the middle. -/
def sampleProgram : List Written :=
  [⟨.alloc, [100, 1], by decide, by decide⟩, ⟨.syscall, [101, 1], by decide, by decide⟩,
    ⟨.calc, [], by decide, by decide⟩, ⟨.syscall, [], by decide, by decide⟩,
    ⟨.write, [80, 1, 0], by decide, by decide⟩]

theorem load_reads_back_sample :
    ReadsBack 1 ['s', 'c', '2'] 20 sampleProgram (printFile 20 sampleProgram) :=
  load_reads_back 1 ['s', 'c', '2'] 20 (by decide) (prints_printFile 20 sampleProgram)

/-- A file of 2^32 instructions is not read back: their number does not fit `size`. -/
theorem not_load_reads_back :
    ¬ ∀ (availPid : BitVec 32) (path : List Char) (priority : BitVec 32)
      (prog : List Written) (file : List Char),
      PrintsFile false priority.toNat prog.length (prog.map Written.line) file →
      ReadsBack availPid path priority prog file := by
  intro hclaim
  obtain ⟨pcb, next, -, -, -, hsize, -⟩ := hclaim 1 [] 0
    (List.replicate (2 ^ 32) ⟨.calc, [], by decide, by decide⟩) _ (prints_printFile 0 _)
  have hlt := pcb.size.isLt
  rw [hsize, List.length_replicate] at hlt
  exact absurd hlt (Nat.lt_irrefl _)

end Process
end Hdh
