import Hdh.Library.Scan

/-!
# The loader

`load` of `loader.c` reads a process from a text.  It looks at no result of its input
functions: where a conversion fails, the opcode of the instruction before is still in the
buffer `opcode`, the line of the system call before in `buf`, and an argument that has not
been read is what `malloc` has left in the array.
-/

namespace Hdh
namespace Process

open Stdio

/-- `enum ins_opcode_t`. -/
inductive InsOpcode
  | calc
  | alloc
  | free
  | read
  | write
  | syscall
deriving DecidableEq

/-- `arg_t`. -/
abbrev Arg := BitVec 64

/-- `struct inst_t`, with arguments in `α`. -/
structure Inst (α : Type) where
  opcode : InsOpcode
  arg0 : α
  arg1 : α
  arg2 : α
  arg3 : α
deriving DecidableEq

/-- What `load` sets in a `struct pcb_t`, with its code segment.  An argument that has not
been assigned is `none`. -/
structure Pcb where
  pid : BitVec 32
  priority : BitVec 32
  path : List Char
  pc : BitVec 32
  bp : BitVec 32
  size : BitVec 32
  text : List (Inst (Option Arg))
deriving DecidableEq

/-- The ends of `load` other than a process: `exit(1)`, and undefined behaviour. -/
inductive Stop
  | exit
  | undefined
deriving DecidableEq

/-- `OPT_CALC`, `OPT_ALLOC`, `OPT_FREE`, `OPT_READ`, `OPT_WRITE` and `OPT_SYSCALL`. -/
def InsOpcode.opt : InsOpcode → List Char
  | .calc => ['c', 'a', 'l', 'c']
  | .alloc => ['a', 'l', 'l', 'o', 'c']
  | .free => ['f', 'r', 'e', 'e']
  | .read => ['r', 'e', 'a', 'd']
  | .write => ['w', 'r', 'i', 't', 'e']
  | .syscall => ['s', 'y', 's', 'c', 'a', 'l', 'l']

/-- `get_opcode`. -/
def getOpcode (opt : List Char) : Except Stop InsOpcode :=
  if opt = InsOpcode.opt .calc then .ok .calc
  else if opt = InsOpcode.opt .alloc then .ok .alloc
  else if opt = InsOpcode.opt .free then .ok .free
  else if opt = InsOpcode.opt .read then .ok .read
  else if opt = InsOpcode.opt .write then .ok .write
  else if opt = InsOpcode.opt .syscall then .ok .syscall
  else .error .exit

/-- The formats of the arguments. -/
def InsOpcode.format : InsOpcode → List Directive
  | .calc => []
  | .alloc => [.number, .space, .number, .space]
  | .free => [.number, .space]
  | .read => [.number, .space, .number, .space, .number, .space]
  | .write => [.number, .space, .number, .space, .number, .space]
  | .syscall => [.number, .number, .number, .number]

/-- The variables of the loop of `load`: the buffers `opcode` and `buf`, when they have
been written, and what is left of the file. -/
structure LoadSt where
  opcode : Option (List Char)
  buf : Option (List Char)
  file : List Char
deriving DecidableEq

/-- `fscanf(file, "%s", opcode)`.  A word that does not fit `opcode[10]` overflows it. -/
def readOpcode (st : LoadSt) : Except Stop (List Char × LoadSt) :=
  match scanWord st.file with
  | some (word, file) =>
      if word.length < 10 then .ok (word, { st with opcode := some word, file := file })
      else .error .undefined
  | none =>
      match st.opcode with
      | some word => .ok (word, { st with file := [] })
      | none => .error .undefined

/-- `sscanf` on `buf`. -/
def scanBuf (buf : List Char) (st : LoadSt) : Except Stop (List Nat × LoadSt) :=
  match scanf 64 (InsOpcode.format .syscall) buf with
  | some (ns, _) => .ok (ns, st)
  | none => .error .undefined

/-- The branches of the `switch`: the arguments that are assigned. -/
def readArgs (op : InsOpcode) (st : LoadSt) : Except Stop (List Nat × LoadSt) :=
  match op with
  | .calc => .ok ([], st)
  | .syscall =>
      match fgets 200 st.file with
      | some (line, file) => scanBuf line { st with buf := some line, file := file }
      | none =>
          match st.buf with
          | some buf => scanBuf buf st
          | none => .error .undefined
  | .alloc | .free | .read | .write =>
      match scanf 64 op.format st.file with
      | some (ns, file) => .ok (ns, { st with file := file })
      | none => .error .undefined

/-- An instruction whose first arguments have been assigned. -/
def instOf (op : InsOpcode) (args : List Arg) : Inst (Option Arg) where
  opcode := op
  arg0 := args[0]?
  arg1 := args[1]?
  arg2 := args[2]?
  arg3 := args[3]?

/-- One turn of the loop of `load`. -/
def readInst (st : LoadSt) : Except Stop (Inst (Option Arg) × LoadSt) :=
  match readOpcode st with
  | .error stop => .error stop
  | .ok (word, st) =>
      match getOpcode word with
      | .error stop => .error stop
      | .ok op =>
          match readArgs op st with
          | .error stop => .error stop
          | .ok (ns, st) => .ok (instOf op (ns.map (BitVec.ofNat 64)), st)

/-- The loop of `load`. -/
def readText : Nat → LoadSt → Except Stop (List (Inst (Option Arg)))
  | 0, _ => .ok []
  | n + 1, st =>
      match readInst st with
      | .error stop => .error stop
      | .ok (inst, st) =>
          match readText n st with
          | .error stop => .error stop
          | .ok text => .ok (inst :: text)

/-- `load`: the process, and `avail_pid` behind the call.  `none` is a file that cannot be
opened.  A header that does not give the number of instructions leaves it
indeterminate. -/
def load (availPid : BitVec 32) (path : List Char) (file : Option (List Char)) :
    Except Stop (Pcb × BitVec 32) :=
  match file with
  | none => .error .exit
  | some file =>
      match scanf 32 [.number, .space, .number] file with
      | some ([priority, size], file) =>
          match readText size { opcode := none, buf := none, file := file } with
          | .error stop => .error stop
          | .ok text =>
              .ok ({ pid := availPid
                     priority := BitVec.ofNat 32 priority
                     path := path.take 16
                     pc := 0
                     bp := 1024
                     size := BitVec.ofNat 32 size
                     text := text }, availPid + 1)
      | _ => .error .undefined

/-! ## The words of the opcodes -/

/-- The number of arguments that an instruction takes, at most. -/
def InsOpcode.arity (op : InsOpcode) : Nat :=
  op.format.count .number

/-- `get_opcode` knows the name of every opcode. -/
theorem getOpcode_opt (op : InsOpcode) : getOpcode op.opt = .ok op := by
  cases op <;> rfl

/-- Every other word ends the program. -/
theorem getOpcode_unknown {word : List Char} (h : ∀ op : InsOpcode, word ≠ op.opt) :
    getOpcode word = .error .exit := by
  simp only [getOpcode, h, if_false]

/-- The name is a word, so that `fscanf` stops behind it. -/
theorem isWord_opt (op : InsOpcode) : IsWord op.opt := by
  have hne : op.opt ≠ [] := by
    cases op <;> exact List.cons_ne_nil _ _
  have hsolid : (op.opt.all fun c => !isSpace c) = true := by
    cases op <;> rfl
  exact ⟨hne, fun c hc => by simpa using List.all_eq_true.mp hsolid c hc⟩

/-- It fits the buffer of `load`. -/
theorem length_opt (op : InsOpcode) : op.opt.length < 10 := by
  cases op <;> decide

/-- Reading arguments never ends the program. -/
theorem readArgs_ne_exit (op : InsOpcode) (st : LoadSt) :
    readArgs op st ≠ .error .exit := by
  have hbuf : ∀ buf st, scanBuf buf st ≠ .error .exit := by
    intro buf st
    unfold scanBuf
    split <;> simp
  unfold readArgs
  split
  · simp
  · split
    · exact hbuf _ _
    · split
      · exact hbuf _ _
      · simp
  all_goals
    split <;> simp

end Process
end Hdh
