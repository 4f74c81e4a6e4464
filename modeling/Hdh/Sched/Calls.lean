import Hdh.Sched.Dispatch

/-!
# The calls of a run

A step of the loader or of a CPU together with what is seen of it: the PCB that
the call is given or returns, the level whose slot counter it changes, and whether
it executes `reset_slot`.  The properties of the scheduler that speak about the past
are about the sequence of these events.

Main results:

- Theorem `effect_of_called`: everything that a call does to the queues, to the
  running list, to the slots and to what the CPUs hold.
-/

namespace Hdh
namespace Sched

variable {C P : Type} [DecidableEq C] [DecidableEq P]

namespace MlqState

/-- The scheduler after the `has_slot` test of `get_mlq_proc`. -/
def refill (s : MlqState P) : MlqState P :=
  if s.hasSlot then s else s.resetSlot

/-- The level that `get_mlq_proc` takes a process from. -/
def served (s : MlqState P) : Option Nat :=
  (List.range maxPrio).find? s.refill.available

/-- `enqueue(&mlq_ready_queue[proc->prio], proc)`. -/
def enter (f : PcbFields P) (s : MlqState P) (proc : P) : MlqState P :=
  { s with
    mlqReadyQueue := Function.update s.mlqReadyQueue (f.prio proc)
      ((s.mlqReadyQueue (f.prio proc)).enqueue proc) }

/-- The scheduler after `get_mlq_proc` has taken `proc` from a level and left `q`. -/
def take (s : MlqState P) (prio : Nat) (proc : P) (q : QueueT P) : MlqState P where
  mlqReadyQueue := Function.update s.mlqReadyQueue prio q
  runningList := s.runningList.enqueue proc
  slot := Function.update s.slot prio (s.slot prio - 1)

/-- The scheduler after `put_mlq_proc`. -/
def putBack (f : PcbFields P) (s : MlqState P) (proc : P) : MlqState P where
  mlqReadyQueue := (s.enter f proc).mlqReadyQueue
  runningList := (s.runningList.purgequeue proc).2
  slot := Function.update s.slot (f.prio proc) (s.slot (f.prio proc) + 1)

omit [DecidableEq P] in
/-- The test of the slots leaves the ready queues alone. -/
@[simp]
theorem refill_mlqReadyQueue (s : MlqState P) :
    s.refill.mlqReadyQueue = s.mlqReadyQueue := by
  unfold refill
  split_ifs <;> rfl

omit [DecidableEq P] in
/-- It leaves the running list alone. -/
@[simp]
theorem refill_runningList (s : MlqState P) :
    s.refill.runningList = s.runningList := by
  unfold refill
  split_ifs <;> rfl

omit [DecidableEq P] in
/-- The answer NULL: nothing is ready, and the slots have been reset. -/
theorem getMlqProc_idle (f : PcbFields P) {s : MlqState P} (hready : s.ready = []) :
    getMlqProc f s = (none, s.resetSlot) ∧ s.hasSlot = false ∧ s.served = none := by
  have hnone : ∀ t : MlqState P, t.mlqReadyQueue = s.mlqReadyQueue → ∀ i < maxPrio,
      t.available i = false := by
    intro t ht i hi
    rw [← Bool.not_eq_true, available_iff, ht]
    exact fun h => h.2 (ready_eq_nil_iff.mp hready i hi)
  have hslot : s.hasSlot = false := by
    rw [hasSlot, List.any_eq_false]
    intro i hi
    simp [hnone s rfl i (List.mem_range.mp hi)]
  have hserved : s.served = none := by
    rw [served, List.find?_eq_none]
    intro i hi
    simp [hnone s.refill (refill_mlqReadyQueue s) i (List.mem_range.mp hi)]
  refine ⟨?_, hslot, hserved⟩
  have hrefill : s.refill = s.resetSlot := by
    rw [refill, if_neg (by simp [hslot])]
  have hserve : getMlqProc f s = serve f s.refill := rfl
  rw [hserve, ← hrefill, serve]
  rw [served] at hserved
  rw [hserved]

omit [DecidableEq P] in
/-- Otherwise a process is taken from the first level that has one and a slot. -/
theorem getMlqProc_busy (f : PcbFields P) {s : MlqState P} (hready : s.ready ≠ []) :
    ∃ prio proc q, prio < maxPrio ∧ s.refill.available prio = true ∧
      (∀ i < prio, s.refill.available i = false) ∧
      (s.mlqReadyQueue prio).dequeue f.priority = some (proc, q) ∧
      getMlqProc f s = (some proc, s.refill.take prio proc q) ∧ s.served = some prio := by
  have hserve : getMlqProc f s = serve f s.refill := rfl
  rcases serve_cases f s.refill with
    ⟨hres, -⟩ | ⟨prio, proc, q, hlt, havail, hfirst, hdeq, hres⟩
  · rcases getMlqProc_cases f s with ⟨hnil, -⟩ | ⟨prio, proc, q, -, -, hsome, -⟩
    · exact absurd hnil hready
    · rw [hserve, hres] at hsome
      cases hsome
  · rw [refill_mlqReadyQueue] at hdeq
    refine ⟨prio, proc, q, hlt, havail, hfirst, hdeq, hserve.trans hres, ?_⟩
    rw [served, List.find?_range_eq_some]
    refine ⟨havail, List.mem_range.mpr hlt, ?_⟩
    intro i hi
    simp [hfirst i hi]

end MlqState

namespace Dispatch

/-- What is seen of a step. -/
structure Seen (P : Type) where
  pcb : Option P
  level : Option Nat
  reset : Bool
deriving DecidableEq

/-- A step with what is seen of it. -/
abbrev Event (C P : Type) := DispatchAct C P × Seen P

variable (f : PcbFields P)

/-- What is seen of a step that begins in `s`. -/
def observe (s : Dispatch C P) : DispatchAct C P → Seen P
  | .addProc p => ⟨some p, none, false⟩
  | .getProc _ => ⟨(MlqState.getMlqProc f s.mlq).1, s.mlq.served, !s.mlq.hasSlot⟩
  | .putProc c => ⟨s.hold c, (s.hold c).map f.prio, false⟩
  | .finish c => ⟨s.hold c, none, false⟩

/-- One step, with what is seen of it. -/
def call (s : Dispatch C P) (a : DispatchAct C P) : Option (Seen P × Dispatch C P) :=
  (step f s a).map fun s' => (observe f s a, s')

/-- An event leads from one state to the next, and meets a condition on the state
before it. -/
def Called (ok : Dispatch C P → DispatchAct C P → Prop) (s : Dispatch C P)
    (e : Event C P) (s' : Dispatch C P) : Prop :=
  ok s e.1 ∧ call f s e.1 = some (e.2, s')

/-- Everything that a call can do. -/
inductive Effect (s : Dispatch C P) : DispatchAct C P → Seen P → Dispatch C P → Prop
  | added {p : P} (hnew : s.alive p = false) (hprio : f.prio p < maxPrio) :
      Effect s (.addProc p) ⟨some p, none, false⟩
        { s with mlq := s.mlq.enter f p, alive := Function.update s.alive p true }
  | idle {c : C} (hhold : s.hold c = none) (hready : s.mlq.ready = []) :
      Effect s (.getProc c) ⟨none, none, true⟩ { s with mlq := s.mlq.resetSlot }
  | got {c : C} {p : P} {prio : Nat} {q : QueueT P} (hhold : s.hold c = none)
      (hprio : prio < maxPrio) (havail : s.mlq.refill.available prio = true)
      (hfirst : ∀ i < prio, s.mlq.refill.available i = false)
      (hdeq : (s.mlq.mlqReadyQueue prio).dequeue f.priority = some (p, q)) :
      Effect s (.getProc c) ⟨some p, some prio, !s.mlq.hasSlot⟩
        { s with
          mlq := s.mlq.refill.take prio p q
          hold := Function.update s.hold c (some p) }
  | put {c : C} {p : P} (hhold : s.hold c = some p) (hprio : f.prio p < maxPrio) :
      Effect s (.putProc c) ⟨some p, some (f.prio p), false⟩
        { s with mlq := s.mlq.putBack f p, hold := Function.update s.hold c none }
  | finished {c : C} {p : P} (hhold : s.hold c = some p) :
      Effect s (.finish c) ⟨some p, none, false⟩
        { s with
          hold := Function.update s.hold c none
          alive := Function.update s.alive p false }

variable {f} {s s' : Dispatch C P}

/-- A step does one of the things listed. -/
theorem effect_of_step {a : DispatchAct C P} (hstep : step f s a = some s') :
    Effect f s a (observe f s a) s' := by
  cases a with
  | addProc p =>
      simp only [step, MlqState.addMlqProc] at hstep
      split_ifs at hstep with halive hprio
      · cases hstep
        exact .added (Bool.eq_false_iff.mpr halive) hprio
      · cases hstep
  | getProc c =>
      simp only [step] at hstep
      split at hstep
      · cases hstep
      · rename_i hidle
        cases hstep
        by_cases hready : s.mlq.ready = []
        · obtain ⟨hget, hslot, hserved⟩ := MlqState.getMlqProc_idle f hready
          have hsame : Function.update s.hold c none = s.hold := by
            rw [← hidle]
            exact Function.update_eq_self c s.hold
          simp only [observe, hget, hslot, hserved, hsame]
          exact .idle hidle hready
        · obtain ⟨prio, p, q, hprio, havail, hfirst, hdeq, hget, hserved⟩ :=
            MlqState.getMlqProc_busy f hready
          simp only [observe, hget, hserved]
          exact .got hidle hprio havail hfirst hdeq
  | putProc c =>
      simp only [step, MlqState.putMlqProc] at hstep
      split at hstep
      · cases hstep
      · rename_i p hheld
        split_ifs at hstep with hprio
        · cases hstep
          simp only [observe, hheld]
          exact .put hheld hprio
        · cases hstep
  | finish c =>
      simp only [step] at hstep
      split at hstep
      · cases hstep
      · rename_i p hheld
        cases hstep
        simp only [observe, hheld]
        exact .finished hheld

/-- So does an event. -/
theorem effect_of_called {ok : Dispatch C P → DispatchAct C P → Prop} {e : Event C P}
    (h : Called f ok s e s') : Effect f s e.1 e.2 s' := by
  obtain ⟨t, hstep, heq⟩ := Option.map_eq_some_iff.mp h.2
  obtain ⟨hseen, rfl⟩ := Prod.mk.inj heq
  rw [← hseen]
  exact effect_of_step hstep

/-- An event is a step. -/
theorem step_of_called {ok : Dispatch C P → DispatchAct C P → Prop} {e : Event C P}
    (h : Called f ok s e s') : step f s e.1 = some s' := by
  obtain ⟨t, hstep, heq⟩ := Option.map_eq_some_iff.mp h.2
  obtain ⟨-, rfl⟩ := Prod.mk.inj heq
  exact hstep

/-- The exclusion invariant in the runs of events. -/
theorem exclusive_of_calls {ok : Dispatch C P → DispatchAct C P → Prop}
    {es : List (Event C P)} (h : Lts.Run (Called f ok) boot es s) : Exclusive s :=
  h.invariant exclusive_boot fun _ _ _ hI hcall => hI.step (step_of_called hcall)

end Dispatch
end Sched
end Hdh
