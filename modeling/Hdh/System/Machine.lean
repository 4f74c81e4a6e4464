import Hdh.Os.Speed
import Hdh.Process.Instructions

/-!
# The simulator with its programs

`cpu_routine` calls `run` on the process that its CPU holds, and `run` carries out the
instruction at the program counter: on the registers of the process, and on the memory
that all processes share.  The scheduler sees nothing of this but the program counter; the
memory manager sees nothing of the scheduler but what the unlocked search of `__sys_memmap`
reads in the queues.

Main results:

- Theorem `turn_of_step`: what a step of the whole simulator can do.
- Theorem `executed_in_order`: whatever the interleaving, each process executes its
  program once and in order.
-/

namespace Hdh
namespace System

open Sched

variable {m : Radix.Malloc Nat 0} {n : Nat}

/-! ## The state -/

/-- What the input files say; and `regs`, what `load` finds in the registers, which it does
not assign. -/
structure Setup where
  timeSlot : Int
  numProcesses : Nat
  startTime : Nat → Nat
  prio : Nat → Nat
  priority : Nat → Nat
  code : Nat → Process.CodeSeg
  regs : Nat → Fin 10 → Memory.Addr

/-- The part of it that the threads look at. -/
def Setup.cfg (S : Setup) : Os.Config where
  timeSlot := S.timeSlot
  numProcesses := S.numProcesses
  startTime := S.startTime
  prio := S.prio
  priority := S.priority
  codeSize := fun p => (S.code p).text.length

/-- The size of a program is the number of its instructions. -/
theorem cfg_codeSize (S : Setup) (p : Nat) :
    S.cfg.codeSize p = (S.code p).text.length :=
  rfl

/-- The PID that `load` gives to a process: `avail_pid` is 1 at first. -/
def pid (p : Nat) : BitVec 32 :=
  BitVec.ofNat 32 (p + 1)

/-- The threads, the processes and the memory. -/
structure Machine (m : Radix.Malloc Nat 0) (n : Nat) where
  os : Os.State n
  proc : Nat → Process.Proc
  krnl : Memory.Krnl m

/-- The state in which the threads are created. -/
def boot (S : Setup) (b : Memory.Boot) : Machine m n where
  os := Os.boot
  proc := fun p => ⟨S.code p, 0, S.regs p⟩
  krnl := b.krnl

/-- What a call of `run` finds outside of the model: the PIDs that `__sys_memmap` reads in
the queues, and the memory of the host with the addresses of the process and of `mram`.  The
search does not take `queue_lock`: other CPUs change the queues between its turns, and it may
read a PCB that has been freed.  So nothing is known here of the PIDs. -/
structure World where
  runningPids : List (BitVec 32)
  mlqReadyPids : List (List (BitVec 32))
  mem : CUnit.Bytes
  pcb : Process.Ptr
  mram : Process.Ptr

/-- The process and the queues in which `__sys_memmap` looks for it.  The `ready_queue` is
not used next to `mlq_ready_queue`. -/
def callerOf (w : World) (p : Nat) : Memory.Caller where
  pid := pid p
  runningList := w.runningPids
  readyQueue := []
  mlqReadyQueue := w.mlqReadyPids

/-- What `run` is called with. -/
def envOf (w : World) (p : Nat) : Process.Env :=
  ⟨callerOf w p, w.mem, w.pcb, w.mram⟩

/-! ## The steps -/

/-- An instruction that a process has executed: its caller and what it has answered. -/
structure Executed where
  p : Nat
  ins : Process.Inst Process.Arg
  caller : Memory.Caller
  answer : Memory.Answer

/-- The instruction at the program counter of a process. -/
def Machine.next (M : Machine m n) (p : Nat) : Option (Process.Inst Process.Arg) :=
  (M.proc p).code.text[(M.proc p).pc.toNat]?

/-- `run(proc)`, by a thread of `cpu_routine` that goes on to `os`. -/
def Machine.call (M : Machine m n) (os : Os.State n) (w : World) (p : Nat) :
    Option (Option Executed × Machine m n) :=
  (Process.run (envOf w p) M.krnl (M.proc p)).map fun o =>
    ((M.next p).map fun ins => ⟨p, ins, callerOf w p, ⟨o.stat, o.data.join⟩⟩,
      ⟨os, Function.update M.proc p o.proc, o.krnl⟩)

/-- One step of the simulator, with the instruction that is executed in it; `none` when the
step is not possible, or an instruction goes past the end of an array or of a device. -/
def Machine.step (S : Setup) (M : Machine m n) (a : Os.Act n) (w : World) :
    Option (Option Executed × Machine m n) :=
  (Os.step S.cfg M.os a).bind fun os =>
    match Os.visible S.cfg M.os a with
    | some (.call _ p) => M.call os w p
    | _ => some (none, { M with os := os })

/-- One step of the simulator as a relation. -/
def Step (S : Setup) (M : Machine m n) (e : Option Executed) (M' : Machine m n) : Prop :=
  ∃ a w, M.step S a w = some (e, M')

variable {S : Setup} {M M' : Machine m n} {e : Option Executed}

/-- Everything that a step can do. -/
inductive Turn (S : Setup) (M : Machine m n) : Option Executed → Machine m n → Prop
  | quiet {a : Os.Act n} {os : Os.State n} : Os.Step S.cfg M.os a os →
      (∀ c p, Os.visible S.cfg M.os a ≠ some (.call c p)) →
      Turn S M none { M with os := os }
  | past {c : Fin n} {p : Nat} {os : Os.State n} : Os.Step S.cfg M.os (.cpu c) os →
      Os.visible S.cfg M.os (.cpu c) = some (.call c p) → M.next p = none →
      Turn S M none { M with os := os }
  | executes {c : Fin n} {p : Nat} {os : Os.State n} {ins : Process.Inst Process.Arg}
      {o : Process.Outcome m} (w : World) : Os.Step S.cfg M.os (.cpu c) os →
      Os.visible S.cfg M.os (.cpu c) = some (.call c p) → M.next p = some ins →
      Process.exec (envOf w p) M.krnl { M.proc p with pc := (M.proc p).pc + 1 } ins =
        some o →
      Turn S M (some ⟨p, ins, callerOf w p, ⟨o.stat, o.data.join⟩⟩)
        ⟨os, Function.update M.proc p o.proc, o.krnl⟩

/-- A step is one of the turns. -/
theorem turn_of_step (h : Step S M e M') : Turn S M e M' := by
  obtain ⟨a, w, hstep⟩ := h
  obtain ⟨os, hos, hcall⟩ := Option.bind_eq_some_iff.mp hstep
  cases hev : Os.visible S.cfg M.os a with
  | none =>
      rw [hev] at hcall
      cases hcall
      exact .quiet hos (by simp [hev])
  | some ev =>
      rw [hev] at hcall
      cases ev with
      | call c p =>
          obtain ⟨rfl, -, -⟩ := Os.visible_call hev
          obtain ⟨o, hrun, heq⟩ := Option.map_eq_some_iff.mp hcall
          obtain ⟨rfl, rfl⟩ := Prod.mk.inj heq
          cases hnext : M.next p with
          | none =>
              simp only [Machine.next] at hnext
              simp only [Process.run, hnext, Option.some_inj] at hrun
              subst hrun
              simp only [Function.update_eq_self, Option.map_none]
              exact .past hos hev hnext
          | some ins =>
              rw [Process.run_eq_exec hnext] at hrun
              exact .executes w hos hev hnext hrun
      | dispatch | putBack | free =>
          cases hcall
          exact .quiet hos (by simp [hev])

/-- Every step is a step of the threads. -/
theorem os_step (h : Step S M e M') : ∃ a, Os.Step S.cfg M.os a M'.os := by
  obtain ⟨a, w, hstep⟩ := h
  obtain ⟨os, hos, hcall⟩ := Option.bind_eq_some_iff.mp hstep
  refine ⟨a, ?_⟩
  split at hcall
  · obtain ⟨o, -, heq⟩ := Option.map_eq_some_iff.mp hcall
    cases heq
    exact hos
  · cases hcall
    exact hos

/-- The threads of a simulation are in a reachable state. -/
theorem os_of_run {b : Memory.Boot} {es : List (Option Executed)}
    (h : Lts.Run (Step S) (boot S b) es M) :
    Lts.Reachable (Os.Step S.cfg) Os.boot M.os :=
  h.simulate Machine.os fun _ _ _ hstep => Or.inr (os_step hstep)

/-! ## The program counter -/

/-- A process executes its own program, and the threads know its program counter. -/
structure Tied (S : Setup) (M : Machine m n) : Prop where
  code : ∀ p, (M.proc p).code = S.code p
  pc : ∀ p, (M.proc p).pc.toNat = M.os.pc p

/-- All program counters are 0 at the beginning. -/
theorem tied_boot (S : Setup) (b : Memory.Boot) : Tied S (boot S b : Machine m n) :=
  ⟨fun _ => rfl, fun _ => rfl⟩

/-- The next instruction is the one that the threads count. -/
theorem Tied.next (hT : Tied S M) (p : Nat) :
    M.next p = (S.code p).text[M.os.pc p]? := by
  rw [Machine.next, hT.code, hT.pc]

/-- What a call of `run` does to the process of an instruction. -/
theorem Tied.executes (hT : Tied S M) {c : Fin n} {p : Nat} {os : Os.State n} {w : World}
    {ins : Process.Inst Process.Arg} {o : Process.Outcome m}
    (hos : Os.Step S.cfg M.os (.cpu c) os)
    (hcall : Os.visible S.cfg M.os (.cpu c) = some (.call c p))
    (hnext : M.next p = some ins)
    (hexec : Process.exec (envOf w p) M.krnl
      { M.proc p with pc := (M.proc p).pc + 1 } ins = some o) :
    os.pc = Function.update M.os.pc p (M.os.pc p + 1) ∧
      o.proc.code = S.code p ∧ o.proc.pc.toNat = M.os.pc p + 1 := by
  have hlt : M.os.pc p < (S.code p).text.length := by
    rw [hT.next] at hnext
    exact (List.getElem?_eq_some_iff.mp hnext).1
  obtain ⟨hproc, -⟩ := Process.exec_proc hexec
  refine ⟨?_, ?_, ?_⟩
  · rw [Os.pc_of_call hos hcall, cfg_codeSize, if_neg (Nat.not_le.mpr hlt)]
  · rw [hproc]
    exact hT.code p
  · have hsize := (S.code p).size_lt
    rw [hproc, BitVec.toNat_add, hT.pc]
    exact Nat.mod_eq_of_lt (by simp; omega)

/-- Every step keeps the threads and the processes in step. -/
theorem Tied.step (hT : Tied S M) (hstep : Step S M e M') : Tied S M' := by
  cases turn_of_step hstep with
  | quiet hos hquiet =>
      refine ⟨hT.code, ?_⟩
      rw [Os.pc_of_quiet hos hquiet]
      exact hT.pc
  | past hos hcall hnext =>
      rw [hT.next, List.getElem?_eq_none_iff] at hnext
      refine ⟨hT.code, ?_⟩
      rw [Os.pc_of_call hos hcall, cfg_codeSize, if_pos hnext]
      exact hT.pc
  | @executes c p os ins o w hos hcall hnext hexec =>
      obtain ⟨hpc, hcode, hpc'⟩ := hT.executes hos hcall hnext hexec
      constructor
      · intro q
        by_cases hqp : q = p
        · subst hqp
          simpa using hcode
        · simpa [hqp] using hT.code q
      · intro q
        rw [hpc]
        by_cases hqp : q = p
        · subst hqp
          simpa using hpc'
        · simpa [hqp] using hT.pc q

/-- They are in step in every reachable state. -/
theorem tied_of_run {b : Memory.Boot} {es : List (Option Executed)}
    (h : Lts.Run (Step S) (boot S b) es M) : Tied S M :=
  h.invariant (tied_boot S b) fun _ _ _ hT hstep => hT.step hstep

/-! ## The order of execution -/

/-- The instructions that a process has executed. -/
def executedBy (p : Nat) (es : List (Option Executed)) : List Executed :=
  (es.filterMap id).filter fun e => e.p = p

/-- A step without an instruction adds nothing. -/
theorem executedBy_none (p : Nat) (es : List (Option Executed)) :
    executedBy p (es ++ [none]) = executedBy p es := by
  simp [executedBy]

/-- An instruction is added to those of its process. -/
theorem executedBy_some (p : Nat) (es : List (Option Executed)) (e : Executed) :
    executedBy p (es ++ [some e]) =
      executedBy p es ++ if e.p = p then [e] else [] := by
  simp [executedBy, List.filter_singleton]

/-- What each process has executed is its program up to its program counter. -/
structure InOrder (S : Setup) (es : List (Option Executed)) (M : Machine m n) : Prop where
  tied : Tied S M
  order : ∀ p, (executedBy p es).map Executed.ins = (S.code p).text.take (M.os.pc p)

/-- Every step keeps the order. -/
theorem InOrder.step {es : List (Option Executed)} (h : InOrder S es M)
    (hstep : Step S M e M') : InOrder S (es ++ [e]) M' := by
  refine ⟨h.tied.step hstep, ?_⟩
  intro q
  cases turn_of_step hstep with
  | quiet hos hquiet =>
      rw [executedBy_none, Os.pc_of_quiet hos hquiet]
      exact h.order q
  | past hos hcall hnext =>
      rw [h.tied.next, List.getElem?_eq_none_iff] at hnext
      rw [executedBy_none, Os.pc_of_call hos hcall, cfg_codeSize, if_pos hnext]
      exact h.order q
  | @executes c p os ins o w hos hcall hnext hexec =>
      rw [executedBy_some, (h.tied.executes hos hcall hnext hexec).1]
      by_cases hqp : q = p
      · subst hqp
        rw [h.tied.next] at hnext
        simp only [if_true, List.map_append, List.map_cons, List.map_nil,
          Function.update_self]
        rw [h.order q, List.take_add_one, hnext]
        rfl
      · rw [if_neg (Ne.symm hqp), List.append_nil, Function.update_of_ne hqp]
        exact h.order q

/-- The order holds in every reachable state. -/
theorem inOrder_of_run {b : Memory.Boot} {es : List (Option Executed)}
    (h : Lts.Run (Step S) (boot S b) es M) : InOrder S es M := by
  apply h.history
  · exact ⟨tied_boot S b, fun p => by simp [executedBy, boot, Os.boot]⟩
  · exact fun _ _ _ _ hI hstep => hI.step hstep

/-- A CPU frees a process that has come to the end of its program. -/
theorem pc_of_free {s : Os.State n} {a : Os.Act n} {c : Fin n} {p : Nat}
    (h : Os.visible S.cfg s a = some (.free c p)) : s.pc p = (S.code p).text.length := by
  obtain ⟨d, q, rfl, hhold, hkind⟩ := Os.visible_eq_some h
  have hfree : c = d ∧ p = q := by simpa using hkind
  obtain ⟨rfl, rfl⟩ := hfree
  rw [Os.visible_held hhold] at h
  unfold Os.sliceEvent at h
  split at h
  · split_ifs at h with hpc
    exact hpc
  · cases h
  · split_ifs at h
    cases h
  · cases h
  · cases h

/-- Each process executes its program in order: whatever the CPUs, the time slots and the
interleaving, what it has executed so far is its program up to its program counter; and a
process that is freed has executed its whole program. -/
theorem executed_in_order {b : Memory.Boot} {es : List (Option Executed)}
    (h : Lts.Run (Step S) (boot S b) es M) (p : Nat) :
    (executedBy p es).map Executed.ins = (S.code p).text.take (M.os.pc p) ∧
      ∀ a c, Os.visible S.cfg M.os a = some (.free c p) →
        (executedBy p es).map Executed.ins = (S.code p).text := by
  have horder := (inOrder_of_run h).order p
  refine ⟨horder, ?_⟩
  intro a c hfree
  rw [horder, pc_of_free hfree, List.take_length]

/-! ## Two programs -/

/-- A schedule whose steps pass a check is a run. -/
theorem run_of_schedule {γ : Type*} (ok : Machine m n → Option Executed → Machine m n → Prop)
    [∀ M e M', Decidable (ok M e M')] (w : World) (as : List (Os.Act n))
    (obs : List (Option Executed) → Machine m n → γ) {M : Machine m n} {v : γ}
    (h : (Lts.record (fun _ _ _ => true)
      (fun M a => (M.step S a w).filter fun r => ok M r.1 r.2) M as).map
        (fun r => obs (r.1.map Prod.snd) r.2) = some v) :
    ∃ es M', Lts.Run (fun M e M' => Step S M e M' ∧ ok M e M') M es M' ∧ obs es M' = v := by
  obtain ⟨⟨es, M'⟩, hrec, hobs⟩ := Option.map_eq_some_iff.mp h
  refine ⟨es.map Prod.snd, M', ?_, hobs⟩
  apply Lts.Run.map Prod.snd
  apply (Lts.record_run hrec).mono
  rintro M ⟨a, e⟩ M' ⟨-, hstep⟩
  obtain ⟨hstep, hok⟩ := Option.filter_eq_some_iff.mp hstep
  exact ⟨⟨a, w, hstep⟩, of_decide_eq_true hok⟩

/-- A program that writes to its region and reads it, and one that has a region too. -/
def twoPrograms : Setup where
  timeSlot := 4
  numProcesses := 2
  startTime := fun _ => 0
  prio := fun _ => 0
  priority := fun _ => 0
  code
    | 0 => ⟨[⟨.alloc, 16, 0, 0, 0⟩, ⟨.write, 7, 0, 3, 0⟩, ⟨.read, 0, 3, 1, 0⟩], by decide⟩
    | 1 => ⟨[⟨.alloc, 16, 1, 0, 0⟩], by decide⟩
    | _ => ⟨[], by decide⟩
  regs := fun _ _ => 0

/-- The search reads the PIDs of both programs, and no system call looks at the memory of the
host. -/
def quietWorld : World :=
  ⟨[1, 2], [], fun _ => none, 0, 0⟩

/-- The loader and two CPUs up to the third slot. -/
def threeSlots (c d : Fin n) : List (Os.Act n) :=
  List.replicate 4 .ld ++ List.replicate 5 (.cpu c) ++ List.replicate 4 (.cpu d) ++
    List.replicate 9 .tick ++ List.replicate 5 (.cpu c) ++ List.replicate 5 .ld ++
    List.replicate 6 (.cpu d) ++ List.replicate 9 .tick ++ List.replicate 4 (.cpu c)

/-- The first process has come to the end of its program. -/
theorem executed_in_order_two_programs :
    ∃ (es : List (Option Executed)) (M : Machine Memory.countingMalloc 2),
      Lts.Run (Step twoPrograms) (boot twoPrograms Memory.smallBoot) es M ∧
      M.os.pc 0 = 3 ∧ M.os.pc 1 = 1 ∧
      (executedBy 0 es).map Executed.ins = (twoPrograms.code 0).text.take 3 := by
  obtain ⟨es, M, hrun, hobs⟩ := run_of_schedule
    (fun (_ : Machine Memory.countingMalloc 2) _ _ => True) quietWorld (threeSlots 0 1)
    (fun _ M => (M.os.pc 0, M.os.pc 1)) (v := (3, 1)) (S := twoPrograms)
    (M := boot twoPrograms Memory.smallBoot) (by decide +kernel)
  obtain ⟨hfst, hsnd⟩ := Prod.mk.inj hobs
  have hsteps := hrun.mono fun _ _ _ hstep => hstep.1
  refine ⟨es, M, hsteps, hfst, hsnd, ?_⟩
  have horder := (executed_in_order hsteps 0).1
  rwa [hfst] at horder

end System
end Hdh
