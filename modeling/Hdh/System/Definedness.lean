import Hdh.Memory.Definedness
import Hdh.System.Privacy

/-!
# Simulations that stay inside of their arrays

The threads never wait for each other for ever; but an instruction that goes past the end of
`symrgtbl` or of a device ends the simulation.  Without system calls, there are these two
kinds only, and programs that name the cells of `symrgtbl` only, on a RAM that covers the swap
device, have none: no thread is held up by its instruction, and all programs are executed.

Reads of PCBs that have been freed, by the search of `__sys_memmap`, and the overflow of an
`int` do not end a simulation here: the search may read any PID, and an `int` wraps.

Main results:

- Theorem `step_inside_iff`: which steps of a simulation stay inside.
- Theorem `programs_executed`: a simulation that always stays inside, and executes every
  program.
-/

namespace Hdh
namespace System

open Sched Memory

variable {m : Radix.Malloc Nat 0} {n : Nat} {S : Setup} {M M' : Machine m n}

/-! ## The instruction that is next -/

/-- The memory manager can carry out the call. -/
def Carried (k : Krnl m) (call : MemCall) : Prop :=
  IdHandled k call ∧ AliasInside k call

/-- The instruction at the program counter of a process can be carried out. -/
def Machine.Ready (M : Machine m n) (p : Nat) : Prop :=
  ∀ ins ∈ M.next p, ∀ call ∈ ins.memCall nobody, Carried M.krnl call

/-- It does not depend on the caller. -/
theorem carried_caller (k : Krnl m) (caller : Caller) (ins : Process.Inst Process.Arg) :
    (∀ call ∈ ins.memCall caller, Carried k call) ↔
      ∀ call ∈ ins.memCall nobody, Carried k call := by
  unfold Process.Inst.memCall
  cases ins.opcode with
  | alloc =>
      simp only [Option.mem_some_iff, forall_eq']
      exact Iff.rfl
  | «calc» | free | read | write | syscall => exact Iff.rfl

/-- An instruction that is no system call stays inside when its call can be carried out. -/
theorem exec_isSome_iff {e : Process.Env} {k : Krnl m} (h : Guarded k)
    (proc : Process.Proc) {ins : Process.Inst Process.Arg} (hsys : ins.opcode ≠ .syscall) :
    (Process.exec e k proc ins).isSome ↔ ∀ call ∈ ins.memCall e.caller, Carried k call := by
  cases hins : ins.memCall e.caller with
  | none =>
      have hop : ins.opcode = .calc := by
        cases hop : ins.opcode with
        | «calc» => rfl
        | syscall => exact absurd hop hsys
        | alloc | free | read | write => simp [Process.Inst.memCall, hop] at hins
      simp [Process.exec, hop]
  | some call =>
      have hrun := congrArg Option.isSome (Process.exec_memCall e k proc hins)
      rw [Option.isSome_map] at hrun
      rw [hrun, h.run_isSome_iff call]
      simp [Carried]

/-- A call of `run` stays inside when the instruction at the program counter does. -/
theorem call_isSome_iff (hT : Tied S M) (hsys : S.NoSyscall) (h : Guarded M.krnl)
    (os : Os.State n) (w : World) (p : Nat) :
    (M.call os w p).isSome ↔ M.Ready p := by
  rw [Machine.call, Option.isSome_map, Machine.Ready]
  cases hnext : M.next p with
  | none =>
      simp only [Machine.next] at hnext
      simp [Process.run, hnext]
  | some ins =>
      have hmem : ins ∈ (S.code p).text := by
        rw [hT.next] at hnext
        exact List.mem_of_getElem? hnext
      rw [Process.run_eq_exec hnext, exec_isSome_iff h _ (hsys p ins hmem), carried_caller]
      simp

/-- A step stays inside when it is no call of `run`, or when the call does. -/
theorem step_isSome_iff (hT : Tied S M) (hsys : S.NoSyscall) (h : Guarded M.krnl)
    {a : Os.Act n} {os : Os.State n} (hos : Os.Step S.cfg M.os a os) (w : World) :
    (M.step S a w).isSome ↔
      ∀ c p, Os.visible S.cfg M.os a = some (.call c p) → M.Ready p := by
  have hstep : Os.step S.cfg M.os a = some os := hos
  rw [Machine.step, hstep, Option.bind_some]
  cases hev : Os.visible S.cfg M.os a with
  | none => simp
  | some ev =>
      cases ev with
      | call c p =>
          simp only [call_isSome_iff hT hsys h, Option.some_inj, Os.SliceEvent.call.injEq]
          constructor
          · rintro hready _ _ ⟨rfl, rfl⟩
            exact hready
          · exact fun hready => hready c p ⟨rfl, rfl⟩
      | dispatch | putBack | free => simp

/-! ## Every run -/

theorem memory_of_steps (hsys : S.NoSyscall) {b : Boot} {es : List (Option Executed)}
    (h : Lts.Run (Step S) (boot S b : Machine m n) es M) :
    Lts.Run (Stepped fun _ _ _ => True) b.krnl (calls es) M.krnl :=
  memory_of_run hsys (h.mono fun _ _ _ hstep => ⟨hstep, fun _ _ _ _ => trivial⟩)

/-- A step of the threads stays inside of the arrays exactly when it is no call of `run`, or
the instruction that is next can be carried out: `symrgtbl` has a cell for its index, or the
index is turned away; and its accesses are inside of the devices. -/
theorem step_inside_iff (hsys : S.NoSyscall) {b : Boot}
    (hmram : 2 * pageSz ≤ b.memramsz ∨ b.staleMram = [])
    (hmswp : 2 * pageSz ≤ b.memswpsz ∨ b.staleMswp = []) {es : List (Option Executed)}
    (h : Lts.Run (Step S) (boot S b : Machine m n) es M) {a : Os.Act n} {os : Os.State n}
    (hos : Os.Step S.cfg M.os a os) (w : World) :
    (M.step S a w).isSome ↔
      ∀ c p, Os.visible S.cfg M.os a = some (.call c p) → M.Ready p :=
  step_isSome_iff (tied_of_run h) hsys
    (guarded_of_run b hmram hmswp (memory_of_steps hsys h)) hos w

/-- The first process is about to write to its region. -/
theorem step_inside_iff_two_programs :
    ∃ (es : List (Option Executed)) (M : Machine countingMalloc 2),
      Lts.Run (Step twoPrograms) (boot twoPrograms smallBoot) es M ∧
      Os.visible twoPrograms.cfg M.os (.cpu 0) = some (.call 0 0) ∧ M.os.pc 0 = 1 ∧
      M.Ready 0 := by
  obtain ⟨es, M, hrun, hobs⟩ := run_of_schedule
    (fun (_ : Machine countingMalloc 2) _ _ => True) quietWorld
    ((threeSlots 0 1).take 25)
    (fun _ M => (M.os.pc 0, Os.visible twoPrograms.cfg M.os (.cpu 0),
      (Os.step twoPrograms.cfg M.os (.cpu 0)).isSome,
      (M.step twoPrograms (.cpu 0) quietWorld).isSome))
    (v := (1, some (.call 0 0), true, true)) (S := twoPrograms)
    (M := boot twoPrograms smallBoot) (by decide +kernel)
  simp only [Prod.mk.injEq] at hobs
  obtain ⟨hpc, hcall, hos, hsome⟩ := hobs
  obtain ⟨os, hos⟩ := Option.isSome_iff_exists.mp hos
  have hsteps := hrun.mono fun _ _ _ hstep => hstep.1
  refine ⟨es, M, hsteps, hcall, hpc, ?_⟩
  exact (step_inside_iff noSyscall_two_programs (b := smallBoot) (Or.inr rfl) (Or.inr rfl)
    hsteps hos quietWorld).mp hsome 0 0 hcall

/-! ## Programs that always stay inside -/

/-- All region indices of the programs are those of cells. -/
def Setup.Indexed (S : Setup) : Prop :=
  ∀ p rgid, Names S p rgid → IdInTable rgid

theorem IdInTable.handled {k : Krnl m} {call : MemCall} (h : IdInTable call.rgid) :
    IdHandled k call := by
  cases call with
  | alloc caller rgid size => exact h
  | free rgid =>
      obtain ⟨-, hlt⟩ := h
      exact Int.ne_of_lt hlt
  | read rgid offset => exact Or.inl h
  | write rgid offset value => exact Or.inl h

/-- Indices of cells, and accesses that cannot be outside. -/
theorem Setup.Indexed.ready (hindexed : S.Indexed) (hT : Tied S M)
    (hcovered : SlotsCovered M.krnl) (p : Nat) : M.Ready p := by
  intro ins hins call hcall
  refine ⟨IdInTable.handled (hindexed p _ ⟨call.op, ?_, ?_⟩), hcovered.aliasInside call⟩
  · rw [Option.mem_def, hT.next] at hins
    refine List.mem_filterMap.mpr ⟨ins, List.mem_of_getElem? hins, ?_⟩
    rw [flatOp, Option.mem_def.mp hcall, Option.map_some]
  · cases call <;> rfl

/-- When all region indices are those of cells, and RAM covers the swap device, no step that a
thread can take goes past the end of an array, whatever the programs and the interleaving.
When no thread can take one any more, all CPUs have stopped and each program has been executed
from its first instruction to its last; and so it has when the slots that the programs take
are over, though a CPU without a process may go on. -/
theorem programs_executed (hn : 0 < n) (hnum : S.numProcesses ≤ maxQueueSize)
    (hlevels : S.cfg.Levels) (hsys : S.NoSyscall) (hindexed : S.Indexed) {b : Boot}
    (hmram : 2 * pageSz ≤ b.memramsz ∨ b.staleMram = [])
    (hmswp : 2 * pageSz ≤ b.memswpsz ∨ b.staleMswp = [])
    (hcovers : CoversSwap b.memramsz b.memswpsz) {es : List (Option Executed)}
    (h : Lts.Run (Step S) (boot S b : Machine m n) es M) :
    (∀ a w, (M.step S a w).isSome = (Os.step S.cfg M.os a).isSome) ∧
      ((∀ a : Os.Act n, a.Own → ∀ w, M.step S a w = none) →
        (∀ c, M.os.cpu c = .stopped) ∧
        ∀ p < S.numProcesses, (executedBy p es).map Executed.ins = (S.code p).text) ∧
      ∀ last, (∀ p < S.numProcesses, S.startTime p ≤ last) →
        S.cfg.slots last < M.os.timer.time →
          ∀ p < S.numProcesses, (executedBy p es).map Executed.ins = (S.code p).text := by
  have hmem := memory_of_steps hsys h
  have hguarded := guarded_of_run b hmram hmswp hmem
  have hready := fun p => hindexed.ready (tied_of_run h)
    (slotsCovered_of_run b hmram hmswp hcovers hmem) p
  have hinside : ∀ a w, (M.step S a w).isSome = (Os.step S.cfg M.os a).isSome := by
    intro a w
    cases hos : Os.step S.cfg M.os a with
    | none => simp [Machine.step, hos]
    | some os =>
        refine (step_isSome_iff (tied_of_run h) hsys hguarded hos w).mpr ?_
        exact fun _ p _ => hready p
  obtain ⟨as, has⟩ := os_of_run h
  have hwhole : Os.AllDone S.cfg M.os →
      ∀ p < S.numProcesses, (executedBy p es).map Executed.ins = (S.code p).text := by
    intro hdone p hp
    have hend := hdone.2 p hp
    rw [(inOrder_of_run h).order p, hend, cfg_codeSize, List.take_length]
  refine ⟨hinside, ?_, ?_⟩
  · intro hstuck
    have hos : ∀ a : Os.Act n, a.Own → Os.step S.cfg M.os a = none := by
      intro a hown
      have hnone := hinside a quietWorld
      rw [hstuck a hown quietWorld, Option.isSome_none] at hnone
      exact Option.isNone_iff_eq_none.mp (Option.isSome_eq_false_iff.mp hnone.symm)
    obtain ⟨hstopped, -, -⟩ := Os.all_stopped_of_stuck (Os.Sound.of_run has) hlevels hos
    exact ⟨hstopped, hwhole (Os.allDone_of_stopped hn hnum has hstopped)⟩
  · intro last hlast htime
    exact hwhole (Os.allDone_of_time hn hnum hlast has htime)

/-- 64 frames of RAM and two of swap. -/
def wideBoot : Boot where
  __ := smallBoot
  memramsz := 16384
  memswpsz := 512
  memramsz_lt := Nat.le_of_ble_eq_true rfl
  memswpsz_lt := Nat.le_of_ble_eq_true rfl

/-- Both programs have been executed, and no step that follows goes past the end of an array. -/
theorem programs_executed_two_programs :
    ∃ (es : List (Option Executed)) (M : Machine countingMalloc 2),
      Lts.Run (Step twoPrograms) (boot twoPrograms wideBoot) es M ∧
      M.os.pc 0 = 3 ∧ M.os.pc 1 = 1 ∧
      ∀ a w, (M.step twoPrograms a w).isSome = (Os.step twoPrograms.cfg M.os a).isSome := by
  obtain ⟨es, M, hrun, hobs⟩ := run_of_schedule
    (fun (_ : Machine countingMalloc 2) _ _ => True) quietWorld (threeSlots 0 1)
    (fun _ M => (M.os.pc 0, M.os.pc 1)) (v := (3, 1)) (S := twoPrograms)
    (M := boot twoPrograms wideBoot) (by decide +kernel)
  obtain ⟨hfst, hsnd⟩ := Prod.mk.inj hobs
  have hsteps := hrun.mono fun _ _ _ hstep => hstep.1
  have hlevels : twoPrograms.cfg.Levels := by
    simp [Os.Config.Levels, Setup.cfg, twoPrograms, maxPrio]
  have hindexed : twoPrograms.Indexed := by
    intro p rgid hnames
    rcases names_two_programs hnames with ⟨-, rfl⟩ | ⟨-, rfl⟩ <;> decide
  exact ⟨es, M, hsteps, hfst, hsnd, (programs_executed (by decide) (by decide) hlevels
    noSyscall_two_programs hindexed (b := wideBoot) (Or.inr rfl) (Or.inr rfl) (by decide)
    hsteps).1⟩

end System
end Hdh
