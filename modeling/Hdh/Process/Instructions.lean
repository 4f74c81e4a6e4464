import Hdh.Memory.Allocator
import Hdh.Memory.Mapping
import Hdh.Process.Syscall

/-!
# Instructions

`run` of `cpu.c` takes the instruction at the program counter, and calls a library function
for it.  The arguments of an instruction have 64 bits and the registers are found by 32 of
them; the byte of a `READ` is stored in a copy of the instruction that nobody looks at.

Main results:

- Theorem `exec_memCall`: an instruction of the memory is a call of the memory manager.
- Theorem `callSys_inc`: the system call of an instruction is the one of `__alloc`.
- Theorem `run_registers_iff`: when the registers are what an instruction says, and when a
  failure leaves no byte.
-/

namespace Hdh
namespace Process

open CUnit Memory

variable {m : Radix.Malloc Nat 0}

/-! ## The state -/

/-- A code segment; `size` is the length of its text, which has 32 bits. -/
structure CodeSeg where
  text : List (Inst Arg)
  size_lt : text.length < 2 ^ 32

/-- The part of `struct pcb_t` that `run` uses. -/
structure Proc where
  code : CodeSeg
  pc : BitVec 32
  regs : Fin 10 → Addr

/-- What surrounds a process: the queues at the time of an `ALLOC`; and for a `SYSCALL` the
memory of the host, the address of the process and the address of `mram`. -/
structure Env where
  caller : Caller
  mem : Bytes
  pcb : Ptr
  mram : Ptr

/-- The end of an instruction: the return code of `run`; what `libread` has stored through
its argument `destination`, if it has been called, and `some none` for a byte that has not
been assigned; the process and the kernel. -/
structure Outcome (m : Radix.Malloc Nat 0) where
  stat : Int
  data : Option (Option Byte)
  proc : Proc
  krnl : Krnl m

/-- `regs[reg] = value`, if there is the register. -/
def setReg (regs : Fin 10 → Addr) (reg : Nat) (value : Addr) : Fin 10 → Addr :=
  if h : reg < 10 then Function.update regs ⟨reg, h⟩ value else regs

def Proc.setReg (proc : Proc) (reg : BitVec 32) (value : Addr) : Proc :=
  { proc with regs := Process.setReg proc.regs reg.toNat value }

/-! ## `libmem.c` -/

/-- `liballoc`. -/
def liballoc (e : Env) (k : Krnl m) (proc : Proc) (size : Addr) (regIndex : BitVec 32) :
    Option (Int × Proc × Krnl m) :=
  (Memory.alloc k e.caller 0 regIndex.toInt size).map fun r =>
    if r.1 = -1 then (-1, proc, r.2.2) else (r.1, proc.setReg regIndex r.2.1, r.2.2)

/-- `libfree`. -/
def libfree (k : Krnl m) (proc : Proc) (regIndex : BitVec 32) :
    Option (Int × Proc × Krnl m) :=
  (Memory.free k regIndex.toInt).map fun r =>
    if r.1 = -1 then (-1, proc, r.2) else (0, proc.setReg regIndex 0, r.2)

/-- `libread`, with the byte that is stored in `*destination`, whether it has been assigned
or not. -/
def libread (k : Krnl m) (source : BitVec 32) (offset : Addr) :
    Option (Int × Option Byte × Krnl m) :=
  Memory.read k 0 source.toInt offset

/-- `libwrite`. -/
def libwrite (k : Krnl m) (data : Byte) (destination : BitVec 32) (offset : Addr) :
    Option (Int × Krnl m) :=
  (Memory.write k 0 destination.toInt offset data).map fun r =>
    if r.1 = -1 then (-1, r.2) else r

/-! ## The system call -/

/-- The operation of `__sys_memmap` on the kernel.  An access to what is not `mram` is
undefined. -/
def Operation.perform (mram : Ptr) (k : Krnl m) : Operation → Option (Krnl m)
  | .vmapPgdMemset _ addr pgnum =>
      some { k with mm := { k.mm with pgd := (Memory.vmapPgdMemset k.mm.pgd addr pgnum).2 } }
  | .incVmaLimit _ vmaid incSz => (Memory.incVmaLimit k vmaid incSz).map Prod.snd
  | .mmSwapPage _ vicfpn swpfpn =>
      (swapCpPage k.mram vicfpn k.activeMswp swpfpn).map fun r =>
        { k with mram := r.2.1, activeMswp := r.2.2 }
  | .memphyRead mp addr =>
      if mp = mram then (k.mram.read addr).map fun r => { k with mram := r.2.2 } else none
  | .memphyWrite mp addr data =>
      if mp = mram then (k.mram.write addr data).map fun r => { k with mram := r.2 } else none

/-- `libsyscall` on the kernel.  Its registers are dropped, so that it does not matter what
`MEMPHY_read` leaves in them. -/
def callSys (e : Env) (k : Krnl m) (ins : Inst Arg) : Option (Int × Krnl m) :=
  match libsyscall e.mem e.pcb (ins.arg0.setWidth 32) ins.arg1 ins.arg2 ins.arg3 0 with
  | none => none
  | some (stat, none) => some (stat, k)
  | some (stat, some op) => (op.perform e.mram k).map fun k => (stat, k)

/-! ## `cpu.c` -/

/-- The `switch` of `run`. -/
def exec (e : Env) (k : Krnl m) (proc : Proc) (ins : Inst Arg) : Option (Outcome m) :=
  match ins.opcode with
  | .calc => some ⟨0, none, proc, k⟩
  | .alloc =>
      (liballoc e k proc ins.arg0 (ins.arg1.setWidth 32)).map fun r =>
        ⟨r.1, none, r.2.1, r.2.2⟩
  | .free =>
      (libfree k proc (ins.arg0.setWidth 32)).map fun r => ⟨r.1, none, r.2.1, r.2.2⟩
  | .read =>
      (libread k (ins.arg0.setWidth 32) ins.arg1).map fun r => ⟨r.1, some r.2.1, proc, r.2.2⟩
  | .write =>
      (libwrite k (ins.arg0.setWidth 8) (ins.arg1.setWidth 32) ins.arg2).map fun r =>
        ⟨r.1, none, proc, r.2⟩
  | .syscall => (callSys e k ins).map fun r => ⟨r.1, none, proc, r.2⟩

/-- `run`. -/
def run (e : Env) (k : Krnl m) (proc : Proc) : Option (Outcome m) :=
  match proc.code.text[proc.pc.toNat]? with
  | none => some ⟨1, none, proc, k⟩
  | some ins => exec e k { proc with pc := proc.pc + 1 } ins

/-! ## Calls of the memory manager -/

/-- The call of the memory manager that an instruction makes. -/
def Inst.memCall (caller : Caller) (ins : Inst Arg) : Option MemCall :=
  match ins.opcode with
  | .calc | .syscall => none
  | .alloc => some (.alloc caller (ins.arg1.setWidth 32 : BitVec 32).toInt ins.arg0)
  | .free => some (.free (ins.arg0.setWidth 32 : BitVec 32).toInt)
  | .read => some (.read (ins.arg0.setWidth 32 : BitVec 32).toInt ins.arg1)
  | .write =>
      some (.write (ins.arg1.setWidth 32 : BitVec 32).toInt ins.arg2 (ins.arg0.setWidth 8))

/-- The base of a region. -/
def regionBase (k : Krnl m) (rgid : Int) : Addr :=
  match symIndex rgid with
  | some i => (k.mm.symrgtbl i).rgStart
  | none => 0

/-- `__alloc` answers 0 and the base of the region that it has entered. -/
theorem alloc_answer {k k' : Krnl m} {caller : Caller} {rgid val : Int} {size addr : Addr}
    (h : Memory.alloc k caller 0 rgid size = some (val, addr, k')) :
    val = 0 ∧ addr = regionBase k' rgid := by
  unfold Memory.alloc at h
  split at h
  · rename_i pos i hvma hsym
    split at h
    · cases h
    · dsimp only at h
      split at h
      · cases h
        simp [regionBase, hsym, Mm.setRg]
      · obtain ⟨r, -, hr⟩ := Option.map_eq_some_iff.mp h
        cases hr
        simp [regionBase, hsym, Mm.setRg, Mm.modifyVma]
  · cases h

theorem free_answer {k k' : Krnl m} {rgid val : Int}
    (h : Memory.free k rgid = some (val, k')) : val = -1 ∨ val = 0 := by
  unfold Memory.free at h
  split at h
  · cases h
    exact Or.inl rfl
  · split at h
    · cases h
    · dsimp only at h
      split at h
      · cases h
        exact Or.inl rfl
      · split at h
        · cases h
        · cases h
          exact Or.inr rfl

/-- An instruction of the memory is a call of the memory manager: it has the return code of
the call, and the byte that the call has assigned. -/
theorem exec_memCall (e : Env) (k : Krnl m) (proc : Proc) {ins : Inst Arg} {call : MemCall}
    (h : ins.memCall e.caller = some call) :
    (exec e k proc ins).map (fun o => ((⟨o.stat, o.data.join⟩ : Answer), o.krnl)) =
      call.run k := by
  cases hop : ins.opcode with
  | «calc» | syscall => simp [Inst.memCall, hop] at h
  | alloc =>
      simp only [Inst.memCall, hop, Option.some_inj] at h
      subst h
      simp only [exec, hop, liballoc, MemCall.run, Option.map_map]
      refine Option.map_congr fun ⟨val, addr, k'⟩ hr => ?_
      obtain ⟨rfl, -⟩ := alloc_answer hr
      simp
  | free =>
      simp only [Inst.memCall, hop, Option.some_inj] at h
      subst h
      simp only [exec, hop, libfree, MemCall.run, Option.map_map]
      refine Option.map_congr fun ⟨val, k'⟩ hr => ?_
      rcases free_answer hr with rfl | rfl <;> simp
  | read =>
      simp only [Inst.memCall, hop, Option.some_inj] at h
      subst h
      simp only [exec, hop, libread, MemCall.run, Option.map_map]
      rfl
  | write =>
      simp only [Inst.memCall, hop, Option.some_inj] at h
      subst h
      simp only [exec, hop, libwrite, MemCall.run, Option.map_map]
      refine Option.map_congr fun r _ => ?_
      by_cases hval : r.1 = -1 <;> simp [hval]

/-- `SYSCALL 17` with `SYSMEM_INC_OP` is the system call that `__alloc` makes itself. -/
theorem callSys_inc {e : Env} {pcb : HostPcb} (h : PcbAt e.mem e.pcb pcb e.mram)
    (hfound : findCaller Source.sysMem.view e.mem pcb.krnl pcb.pid = some (some e.pcb))
    (hcaller : e.caller.found = true) {ins : Inst Arg}
    (hnr : ins.arg0.setWidth 32 = (17 : BitVec 32))
    (hinc : memOp ins.arg1 = some .inc) (k : Krnl m) :
    callSys e k ins = sysMemmapInc k e.caller ins.arg2 ins.arg3 := by
  have hsize : Source.sysMem.view.asAddr ins.arg3 = (ins.arg3.setWidth 32).setWidth 64 := by
    rw [sysMem_view]
    rfl
  have hcall : libsyscall e.mem e.pcb (ins.arg0.setWidth 32) ins.arg1 ins.arg2 ins.arg3 0 =
      some (0, some (.incVmaLimit e.pcb (ins.arg2.setWidth 32 : BitVec 32).toInt
        ((ins.arg3.setWidth 32).setWidth 64))) := by
    rw [hnr, libsyscall_memmap h hfound]
    simp only [operate, hinc, hsize, Option.map_some]
  simp only [callSys, hcall, Operation.perform]
  rw [sysMemmapInc, if_pos hcaller, Option.map_map]
  rfl

/-! ## Registers -/

theorem setReg_eq_self_iff (regs : Fin 10 → Addr) (reg : Nat) (value : Addr) :
    setReg regs reg value = regs ↔ ∀ i : Fin 10, i.val = reg → regs i = value := by
  unfold setReg
  split
  · rename_i hreg
    rw [Function.update_eq_self_iff]
    constructor
    · rintro rfl i hi
      exact congrArg regs (Fin.ext hi)
    · exact fun hvalue => (hvalue ⟨reg, hreg⟩ rfl).symm
  · rename_i hreg
    exact iff_of_true rfl fun i hi => absurd (hi ▸ i.isLt) hreg

/-- A register with a number of 64 bits, of which 32 are used, gets a value as if all were:
the others are zero, or the register that is meant instead has the value. -/
def Kept (regs : Fin 10 → Addr) (reg : Arg) (value : Addr) : Prop :=
  reg.toNat < 2 ^ 32 ∨ ∀ i : Fin 10, i.val = reg.toNat % 2 ^ 32 → regs i = value

theorem setReg_low_iff (regs : Fin 10 → Addr) (reg : Arg) {value named : Addr}
    (hnamed : reg.toNat < 10 → named = value) :
    setReg regs (reg.toNat % 2 ^ 32) value = setReg regs reg.toNat named ↔
      Kept regs reg value := by
  by_cases hreg : reg.toNat < 2 ^ 32
  · refine iff_of_true ?_ (Or.inl hreg)
    rw [Nat.mod_eq_of_lt hreg]
    by_cases hten : reg.toNat < 10
    · rw [hnamed hten]
    · simp only [setReg, hten, dif_neg, not_false_eq_true]
  · have hnone : setReg regs reg.toNat named = regs :=
      (setReg_eq_self_iff ..).mpr fun i hi => absurd (hi ▸ i.isLt) (by omega)
    rw [hnone, setReg_eq_self_iff, Kept, or_iff_right hreg]

/-- The registers behind an instruction, as the code sets them. -/
def codeRegs (regs : Fin 10 → Addr) (ins : Inst Arg) (stat : Int) (k : Krnl m) :
    Fin 10 → Addr :=
  match ins.opcode with
  | .alloc =>
      if stat = 0 then
        setReg regs (ins.arg1.toNat % 2 ^ 32)
          (regionBase k (ins.arg1.setWidth 32 : BitVec 32).toInt)
      else regs
  | .free => if stat = 0 then setReg regs (ins.arg0.toNat % 2 ^ 32) 0 else regs
  | _ => regs

/-- What an instruction does to the process. -/
theorem exec_proc {e : Env} {k : Krnl m} {proc : Proc} {ins : Inst Arg} {o : Outcome m}
    (h : exec e k proc ins = some o) :
    o.proc = { proc with regs := codeRegs proc.regs ins o.stat o.krnl } ∧
      (o.data = none ↔ ins.opcode ≠ .read) := by
  cases hop : ins.opcode with
  | «calc» =>
      simp only [exec, hop, Option.some_inj] at h
      subst h
      simp [codeRegs, hop]
  | alloc =>
      simp only [exec, hop, liballoc, Option.map_map, Option.map_eq_some_iff] at h
      obtain ⟨⟨val, addr, k'⟩, hr, rfl⟩ := h
      obtain ⟨rfl, rfl⟩ := alloc_answer hr
      simp [codeRegs, hop, Proc.setReg]
  | free =>
      simp only [exec, hop, libfree, Option.map_map, Option.map_eq_some_iff] at h
      obtain ⟨⟨val, k'⟩, hr, rfl⟩ := h
      rcases free_answer hr with rfl | rfl <;> simp [codeRegs, hop, Proc.setReg]
  | read | write | syscall =>
      simp only [exec, hop, Option.map_eq_some_iff] at h
      obtain ⟨r, -, rfl⟩ := h
      simp [codeRegs, hop]

/-! ## The meaning of an instruction -/

/-- The registers behind a successful instruction: `ALLOC` names a register for the base of
its region, `FREE` one that becomes 0, and `READ` one for the byte. -/
def specRegs (regs : Fin 10 → Addr) (ins : Inst Arg) (k : Krnl m) (data : Option Byte) :
    Fin 10 → Addr :=
  match ins.opcode, data with
  | .alloc, _ => setReg regs ins.arg1.toNat (regionBase k ins.arg1.toNat)
  | .free, _ => setReg regs ins.arg0.toNat 0
  | .read, some byte => setReg regs ins.arg2.toNat (byte.setWidth 64)
  | _, _ => regs

/-- The process goes on to its next instruction, and its registers are what the instruction
says. -/
structure RunsAs (proc : Proc) (ins : Inst Arg) (o : Outcome m) : Prop where
  pc : o.proc.pc.toNat = proc.pc.toNat + 1
  code : o.proc.code = proc.code
  succeeded : o.stat = 0 → o.proc.regs = specRegs proc.regs ins o.krnl o.data.join
  failed : o.stat ≠ 0 → o.proc.regs = proc.regs

/-- The call of the instruction is inside of all tables and devices; the register of an
`ALLOC` or a `FREE` is the one that is named; and the byte of a `READ` is in its register
already, if there is one. -/
def RegistersHold (e : Env) (k : Krnl m) (regs : Fin 10 → Addr) (ins : Inst Arg) : Prop :=
  match ins.memCall e.caller with
  | none => ins.opcode = .syscall → (callSys e k ins).isSome
  | some call => ∃ a k', call.run k = some (a, k') ∧ (a.stat = 0 →
      match ins.opcode with
      | .alloc =>
          Kept regs ins.arg1 (regionBase k' (ins.arg1.setWidth 32 : BitVec 32).toInt)
      | .free => Kept regs ins.arg0 0
      | .read => ∀ byte, a.data = some byte →
          ∀ i : Fin 10, i.val = ins.arg2.toNat → regs i = byte.setWidth 64
      | _ => True)

/-- The call of the instruction is inside of all tables and devices, and is no `READ` that
fails. -/
def FailsSilently (e : Env) (k : Krnl m) (ins : Inst Arg) : Prop :=
  match ins.memCall e.caller with
  | none => ins.opcode = .syscall → (callSys e k ins).isSome
  | some call => ∃ a k', call.run k = some (a, k') ∧ (ins.opcode = .read → a.stat = 0)

/-- What the code does to the registers is what the instruction says under a condition on
its answer alone. -/
theorem codeRegs_eq_specRegs_iff (regs : Fin 10 → Addr) (ins : Inst Arg) (k : Krnl m)
    (data : Option Byte) :
    codeRegs regs ins 0 k = specRegs regs ins k data ↔
      match ins.opcode with
      | .alloc =>
          Kept regs ins.arg1 (regionBase k (ins.arg1.setWidth 32 : BitVec 32).toInt)
      | .free => Kept regs ins.arg0 0
      | .read => ∀ byte, data = some byte →
          ∀ i : Fin 10, i.val = ins.arg2.toNat → regs i = byte.setWidth 64
      | _ => True := by
  cases hop : ins.opcode with
  | alloc =>
      simp only [codeRegs, specRegs, hop, if_true]
      refine setReg_low_iff _ _ fun hten => ?_
      rw [toInt_setWidth_of_lt (by omega)]
  | free =>
      simp only [codeRegs, specRegs, hop, if_true]
      exact setReg_low_iff _ _ fun _ => rfl
  | read =>
      cases data with
      | none => simp [codeRegs, specRegs, hop]
      | some byte =>
          simp only [codeRegs, specRegs, hop, Option.some_inj, forall_eq']
          rw [eq_comm, setReg_eq_self_iff]
  | «calc» | write | syscall => simp [codeRegs, specRegs, hop]

theorem run_eq_exec {e : Env} {k : Krnl m} {proc : Proc} {ins : Inst Arg}
    (hins : proc.code.text[proc.pc.toNat]? = some ins) :
    run e k proc = exec e k { proc with pc := proc.pc + 1 } ins := by
  simp only [run, hins]

/-- Behind an instruction of the code, the process runs as the instruction says if and only
if its registers are as they should be when it succeeds. -/
theorem runsAs_iff {e : Env} {k : Krnl m} {proc : Proc} {ins : Inst Arg} {o : Outcome m}
    (hins : proc.code.text[proc.pc.toNat]? = some ins) (h : run e k proc = some o) :
    RunsAs proc ins o ↔ (o.stat = 0 →
      codeRegs proc.regs ins 0 o.krnl = specRegs proc.regs ins o.krnl o.data.join) := by
  rw [run_eq_exec hins] at h
  obtain ⟨hproc, -⟩ := exec_proc h
  have hpc : proc.pc.toNat < proc.code.text.length := (List.getElem?_eq_some_iff.mp hins).1
  have hsize := proc.code.size_lt
  constructor
  · intro hruns hstat
    rw [← hruns.succeeded hstat, hproc, hstat]
  · intro hregs
    refine ⟨?_, by rw [hproc], fun hstat => ?_, fun hstat => ?_⟩
    · rw [hproc, BitVec.toNat_add]
      exact Nat.mod_eq_of_lt (by simp; omega)
    · rw [hproc, hstat]
      exact hregs hstat
    · rw [hproc]
      unfold codeRegs
      split <;> simp [hstat]

/-- The end of an instruction of the memory is the answer of its call. -/
theorem run_answer {e : Env} {k : Krnl m} {proc : Proc} {ins : Inst Arg} {call : MemCall}
    (hins : proc.code.text[proc.pc.toNat]? = some ins)
    (hcall : ins.memCall e.caller = some call) (P : Answer → Krnl m → Prop) :
    (∃ o, run e k proc = some o ∧ P ⟨o.stat, o.data.join⟩ o.krnl) ↔
      ∃ a k', call.run k = some (a, k') ∧ P a k' := by
  rw [run_eq_exec hins, ← exec_memCall e k { proc with pc := proc.pc + 1 } hcall]
  constructor
  · rintro ⟨o, ho, hP⟩
    exact ⟨_, _, by rw [ho]; rfl, hP⟩
  · rintro ⟨a, k', hrun, hP⟩
    obtain ⟨o, ho, heq⟩ := Option.map_eq_some_iff.mp hrun
    obtain ⟨rfl, rfl⟩ := Prod.mk.inj heq
    exact ⟨o, ho, hP⟩

/-- An instruction that does not use the memory manager ends, except for a system call that
is undefined. -/
theorem run_other {e : Env} {k : Krnl m} {proc : Proc} {ins : Inst Arg}
    (hins : proc.code.text[proc.pc.toNat]? = some ins) (hcall : ins.memCall e.caller = none) :
    (∃ o, run e k proc = some o) ↔ (ins.opcode = .syscall → (callSys e k ins).isSome) := by
  rw [run_eq_exec hins, ← Option.isSome_iff_exists]
  cases hop : ins.opcode with
  | alloc | free | read | write => simp [Inst.memCall, hop] at hcall
  | «calc» | syscall => simp [exec, hop]

/-- Both parts of the meaning of an instruction, for every process and every kernel: its
registers, and that a failure leaves no byte. -/
theorem run_registers_iff (e : Env) (k : Krnl m) (proc : Proc) {ins : Inst Arg}
    (hins : proc.code.text[proc.pc.toNat]? = some ins) :
    ((∃ o, run e k proc = some o ∧ RunsAs proc ins o) ↔ RegistersHold e k proc.regs ins) ∧
      ((∃ o, run e k proc = some o ∧ (o.stat ≠ 0 → o.data = none)) ↔
        FailsSilently e k ins) := by
  have hruns : (∃ o, run e k proc = some o ∧ RunsAs proc ins o) ↔
      ∃ o, run e k proc = some o ∧ (o.stat = 0 →
        codeRegs proc.regs ins 0 o.krnl = specRegs proc.regs ins o.krnl o.data.join) :=
    exists_congr fun o => and_congr_right fun ho => runsAs_iff hins ho
  have hsilent : (∃ o, run e k proc = some o ∧ (o.stat ≠ 0 → o.data = none)) ↔
      ∃ o, run e k proc = some o ∧ (ins.opcode = .read → o.stat = 0) := by
    refine exists_congr fun o => and_congr_right fun ho => ?_
    rw [run_eq_exec hins] at ho
    rw [(exec_proc ho).2]
    tauto
  rw [hruns, hsilent, RegistersHold, FailsSilently]
  cases hcall : ins.memCall e.caller with
  | some call =>
      refine ⟨?_, run_answer hins hcall fun a _ => ins.opcode = .read → a.stat = 0⟩
      rw [run_answer hins hcall fun a k' =>
        a.stat = 0 → codeRegs proc.regs ins 0 k' = specRegs proc.regs ins k' a.data]
      simp only [codeRegs_eq_specRegs_iff]
  | none =>
      have hother : ins.opcode = .calc ∨ ins.opcode = .syscall := by
        cases hop : ins.opcode <;> simp_all [Inst.memCall]
      simp only [codeRegs_eq_specRegs_iff]
      rcases hother with hop | hop <;>
        simp only [hop, implies_true, and_true, reduceCtorEq, false_implies] <;>
        simpa [hop] using run_other (k := k) hins hcall

/-- A process that is about to carry out an instruction. -/
def single (ins : Inst Arg) : Proc where
  code := ⟨[ins], Nat.one_lt_two_pow (by decide)⟩
  pc := 0
  regs := fun _ => 300

/-- One process, and no memory of the host. -/
def soleEnv : Env := ⟨soleCaller, fun _ => none, 4096, 16384⟩

theorem run_registers_sample :
    ((∃ o, run soleEnv (smallBoot.krnl (m := countingMalloc))
          (single ⟨.alloc, 512, 1, 0, 0⟩) = some o ∧
        RunsAs (single ⟨.alloc, 512, 1, 0, 0⟩) ⟨.alloc, 512, 1, 0, 0⟩ o) ↔
      RegistersHold soleEnv (smallBoot.krnl (m := countingMalloc)) (fun _ => 300)
        ⟨.alloc, 512, 1, 0, 0⟩) ∧
      ((∃ o, run soleEnv (smallBoot.krnl (m := countingMalloc))
          (single ⟨.alloc, 512, 1, 0, 0⟩) = some o ∧ (o.stat ≠ 0 → o.data = none)) ↔
        FailsSilently soleEnv (smallBoot.krnl (m := countingMalloc))
          ⟨.alloc, 512, 1, 0, 0⟩) :=
  run_registers_iff soleEnv _ (single ⟨.alloc, 512, 1, 0, 0⟩) rfl

/-- A `READ` of the byte 7 succeeds, and register 2 keeps the value 300. -/
theorem not_run_registers :
    ¬ ∀ (e : Env) (k : Krnl countingMalloc) (proc : Proc) (ins : Inst Arg)
      (o : Outcome countingMalloc), proc.code.text[proc.pc.toNat]? = some ins →
      run e k proc = some o → RunsAs proc ins o ∧ (o.stat ≠ 0 → o.data = none) := by
  intro hclaim
  obtain ⟨es, k, -, hobs⟩ := Lts.record_observe
    (fun (_ : Krnl countingMalloc) (_ : MemCall) _ => True)
    (fun k call => call.run k) smallBoot.krnl [.alloc soleCaller 0 512, .write 0 0 7]
    (fun _ k => ((MemCall.read 0 0).run k).map Prod.fst)
    (v := some ⟨0, some 7⟩) (by decide +kernel)
  obtain ⟨⟨a, k'⟩, hread, rfl⟩ := Option.map_eq_some_iff.mp hobs
  let ins : Inst Arg := ⟨.read, 0, 0, 2, 0⟩
  have hins : (single ins).code.text[(single ins).pc.toNat]? = some ins := rfl
  have hcall : ins.memCall soleEnv.caller = some (.read 0 0) := rfl
  obtain ⟨o, ho, hanswer⟩ :=
    (run_answer hins hcall fun a _ => a = ⟨0, some 7⟩).mpr ⟨_, k', hread, rfl⟩
  obtain ⟨hstat, hdata⟩ := Answer.mk.inj hanswer
  obtain ⟨hruns, -⟩ := hclaim soleEnv k (single ins) ins o hins ho
  have hregs := (runsAs_iff hins ho).mp hruns hstat
  rw [hdata] at hregs
  have hkept : (300 : Addr) = 7 := congrFun hregs 2
  exact absurd hkept (by decide)

end Process
end Hdh
