import Hdh.Sched.Queue

/-!
# The multi-level queue scheduler

The scheduler of `sched.c` in its `MLQ_SCHED` build: one ready queue and one slot
counter for each of the `MAX_PRIO` levels, and the list of the running
processes.  Every function below is the body of one `queue_lock` section.

Main results:

- Theorem `getMlqProc_cases`: `get_mlq_proc` answers NULL exactly when no level
  holds a process, and otherwise takes one process out of one level.
- Theorems `ready_putMlqProc` and `ready_getMlqProc`: what the operations do to
  the processes that are ready, all levels taken together.
-/

namespace Hdh
namespace Sched

variable {P : Type}

/-- `MAX_PRIO`. -/
def maxPrio : Nat := 140

/-- What the scheduler reads through a PCB pointer: the legacy `priority` of the
program file and the MLQ level `prio` of the configuration. -/
structure PcbFields (P : Type) where
  priority : P → Nat
  prio : P → Nat

/-- The static data of `sched.c`.  Only the levels below `MAX_PRIO` exist. -/
structure MlqState (P : Type) where
  mlqReadyQueue : Nat → QueueT P
  runningList : QueueT P
  slot : Nat → Int

namespace MlqState

/-- `reset_slot`. -/
def resetSlot (s : MlqState P) : MlqState P :=
  { s with slot := fun i => if i < maxPrio then (maxPrio : Int) - i else s.slot i }

/-- `slot[i] > 0 && !empty(&mlq_ready_queue[i])`. -/
def available (s : MlqState P) (i : Nat) : Bool :=
  decide (0 < s.slot i) && !(s.mlqReadyQueue i).empty

/-- `has_slot`. -/
def hasSlot (s : MlqState P) : Bool :=
  (List.range maxPrio).any s.available

/-- `init_scheduler`. -/
def initScheduler : MlqState P where
  mlqReadyQueue := fun _ => QueueT.cleared
  runningList := QueueT.cleared
  slot := fun i => (maxPrio : Int) - i

variable (f : PcbFields P)

/-- The loop of `get_mlq_proc`: serve the first level that is available. -/
def serve (s : MlqState P) : Option P × MlqState P :=
  match (List.range maxPrio).find? s.available with
  | none => (none, s)
  | some prio =>
      match (s.mlqReadyQueue prio).dequeue f.priority with
      | none => (none, s)
      | some (proc, q) =>
          (some proc,
            { mlqReadyQueue := Function.update s.mlqReadyQueue prio q
              runningList := s.runningList.enqueue proc
              slot := Function.update s.slot prio (s.slot prio - 1) })

/-- `get_mlq_proc`; the answer `none` is NULL. -/
def getMlqProc (s : MlqState P) : Option P × MlqState P :=
  serve f (if s.hasSlot then s else s.resetSlot)

/-- `put_mlq_proc`.  A `prio` past the last level indexes outside `slot` and
`mlq_ready_queue`, which is undefined: the answer is then `none`. -/
def putMlqProc [DecidableEq P] (s : MlqState P) (proc : P) :
    Option (MlqState P) :=
  if f.prio proc < maxPrio then
    some
      { mlqReadyQueue := Function.update s.mlqReadyQueue (f.prio proc)
          ((s.mlqReadyQueue (f.prio proc)).enqueue proc)
        runningList := (s.runningList.purgequeue proc).2
        slot := Function.update s.slot (f.prio proc) (s.slot (f.prio proc) + 1) }
  else none

/-- `add_mlq_proc`; `none` as in `put_mlq_proc`. -/
def addMlqProc (s : MlqState P) (proc : P) : Option (MlqState P) :=
  if f.prio proc < maxPrio then
    some { s with
      mlqReadyQueue := Function.update s.mlqReadyQueue (f.prio proc)
        ((s.mlqReadyQueue (f.prio proc)).enqueue proc) }
  else none

/-! ## The ready processes, all levels taken together -/

/-- The processes in the ready queues, level by level. -/
def ready (s : MlqState P) : List P :=
  (List.range maxPrio).flatMap fun i => (s.mlqReadyQueue i).toList

/-- Nothing is ready after `init_scheduler`. -/
@[simp]
theorem ready_initScheduler : (initScheduler : MlqState P).ready = [] := by
  simp [ready, initScheduler]

theorem ready_eq_nil_iff {s : MlqState P} :
    s.ready = [] ↔ ∀ i < maxPrio, (s.mlqReadyQueue i).toList = [] := by
  simp [ready]

/-- No level holds more processes than all levels together. -/
theorem size_le_ready (s : MlqState P) {k : Nat} (hk : k < maxPrio) :
    (s.mlqReadyQueue k).size ≤ s.ready.length := by
  rw [← QueueT.length_toList, ready, List.flatMap_def]
  apply List.Sublist.length_le
  apply List.sublist_flatten_of_mem
  exact List.mem_map.mpr ⟨k, List.mem_range.mpr hk, rfl⟩

/-- Changing one level by one element changes the concatenation of all levels by
that element. -/
theorem flatMap_update_perm {l : Nat → List P} {n k : Nat} {m : List P} {x : P}
    (hk : k < n) (hm : m.Perm (x :: l k)) :
    ((List.range n).flatMap (Function.update l k m)).Perm
      (x :: (List.range n).flatMap l) := by
  induction n with
  | zero => omega
  | succ n ih =>
      simp only [List.range_succ, List.flatMap_append, List.flatMap_singleton]
      rcases Nat.lt_succ_iff_lt_or_eq.mp hk with hlt | rfl
      · rw [Function.update_of_ne (Nat.ne_of_gt hlt)]
        exact (ih hlt).append_right _
      · rw [Function.update_self]
        have hsame : (List.range k).flatMap (Function.update l k m) =
            (List.range k).flatMap l := by
          refine List.flatMap_congr ?_
          intro i hi
          rw [Function.update_of_ne (Nat.ne_of_lt (List.mem_range.mp hi))]
        rw [hsame]
        exact (hm.append_left _).trans List.perm_middle

/-- The lists of the levels after one level has been replaced. -/
theorem toList_update (g : Nat → QueueT P) (k : Nat) (q : QueueT P) :
    (fun i => (Function.update g k q i).toList) =
      Function.update (fun i => (g i).toList) k q.toList := by
  funext i
  by_cases hi : i = k
  · simp [hi]
  · simp [hi]

/-- A level that has room gains the process, a full one drops it. -/
theorem ready_enqueue (s : MlqState P) {k : Nat} (hk : k < maxPrio) (p : P) :
    ((List.range maxPrio).flatMap fun i =>
        (Function.update s.mlqReadyQueue k
          ((s.mlqReadyQueue k).enqueue p) i).toList).Perm (p :: s.ready) ∨
      ((List.range maxPrio).flatMap fun i =>
        (Function.update s.mlqReadyQueue k
          ((s.mlqReadyQueue k).enqueue p) i).toList) = s.ready ∧
        (s.mlqReadyQueue k).size = maxQueueSize := by
  rw [toList_update, QueueT.toList_enqueue]
  split_ifs with hroom
  · left
    refine flatMap_update_perm hk ?_
    exact List.perm_append_singleton _ _
  · right
    refine ⟨?_, by have := (s.mlqReadyQueue k).size_le; omega⟩
    rw [ready, Function.update_eq_self k (fun i => (s.mlqReadyQueue i).toList)]

/-- A put or an add makes the process ready, or drops it when its level is full. -/
theorem ready_addMlqProc {s s' : MlqState P} {p : P}
    (h : addMlqProc f s p = some s') :
    f.prio p < maxPrio ∧ (s'.ready.Perm (p :: s.ready) ∨
      s'.ready = s.ready ∧ (s.mlqReadyQueue (f.prio p)).size = maxQueueSize) := by
  unfold addMlqProc at h
  split_ifs at h with hprio
  cases h
  exact ⟨hprio, ready_enqueue s hprio p⟩

/-- `put_mlq_proc` makes the process ready, or its level is full. -/
theorem ready_putMlqProc [DecidableEq P] {s s' : MlqState P} {p : P}
    (h : putMlqProc f s p = some s') :
    f.prio p < maxPrio ∧ (s'.ready.Perm (p :: s.ready) ∨
      s'.ready = s.ready ∧ (s.mlqReadyQueue (f.prio p)).size = maxQueueSize) := by
  unfold putMlqProc at h
  split_ifs at h with hprio
  cases h
  exact ⟨hprio, ready_enqueue s hprio p⟩

/-! ## `get_mlq_proc` -/

/-- A level is available when it has a slot and a process. -/
theorem available_iff {s : MlqState P} {i : Nat} :
    s.available i = true ↔ 0 < s.slot i ∧ (s.mlqReadyQueue i).toList ≠ [] := by
  rw [available, Bool.and_eq_true, decide_eq_true_eq, Bool.not_eq_true',
    ← Bool.not_eq_true, QueueT.empty_iff]

/-- The loop answers NULL only when no level is available, and otherwise takes a
process out of one available level. -/
theorem serve_cases (s : MlqState P) :
    (serve f s = (none, s) ∧ ∀ i < maxPrio, s.available i = false) ∨
    ∃ prio proc q, prio < maxPrio ∧ s.available prio = true ∧
      (∀ i < prio, s.available i = false) ∧
      (s.mlqReadyQueue prio).dequeue f.priority = some (proc, q) ∧
      serve f s = (some proc,
        { mlqReadyQueue := Function.update s.mlqReadyQueue prio q
          runningList := s.runningList.enqueue proc
          slot := Function.update s.slot prio (s.slot prio - 1) }) := by
  unfold serve
  cases hfind : (List.range maxPrio).find? s.available with
  | none =>
      left
      refine ⟨rfl, ?_⟩
      intro i hi
      simpa using List.find?_eq_none.mp hfind i (List.mem_range.mpr hi)
  | some prio =>
      right
      obtain ⟨havail, hlt, hbefore⟩ := List.find?_range_eq_some.mp hfind
      have hne := (available_iff.mp havail).2
      cases hdeq : (s.mlqReadyQueue prio).dequeue f.priority with
      | none => exact absurd ((QueueT.dequeue_eq_none_iff _ _).mp hdeq) hne
      | some pq =>
          refine ⟨prio, pq.1, pq.2, List.mem_range.mp hlt, havail, ?_, hdeq, ?_⟩
          · intro i hi
            simpa using hbefore i hi
          · simp [hdeq]

/-- After a reset every level that holds a process is available. -/
theorem available_resetSlot {s : MlqState P} {i : Nat} (hi : i < maxPrio) :
    s.resetSlot.available i = true ↔ (s.mlqReadyQueue i).toList ≠ [] := by
  rw [available_iff]
  have hslot : 0 < s.resetSlot.slot i := by
    simp only [resetSlot, if_pos hi]
    omega
  simp only [hslot, true_and]
  rfl

/-- `get_mlq_proc` answers NULL exactly when no process is ready; the ready
queues and the running list are then as before.  Otherwise it takes one process
out of one level and enters it in the running list. -/
theorem getMlqProc_cases (s : MlqState P) :
    (s.ready = [] ∧ (getMlqProc f s).1 = none ∧
      (getMlqProc f s).2.mlqReadyQueue = s.mlqReadyQueue ∧
      (getMlqProc f s).2.runningList = s.runningList) ∨
    ∃ prio proc q, prio < maxPrio ∧
      (s.mlqReadyQueue prio).dequeue f.priority = some (proc, q) ∧
      (getMlqProc f s).1 = some proc ∧
      (getMlqProc f s).2.mlqReadyQueue =
        Function.update s.mlqReadyQueue prio q ∧
      (getMlqProc f s).2.runningList = s.runningList.enqueue proc := by
  unfold getMlqProc
  split_ifs with hslot
  · rcases serve_cases f s with ⟨-, hnone⟩ | ⟨prio, proc, q, hlt, -, -, hdeq, hres⟩
    · obtain ⟨i, hi, havail⟩ := List.any_eq_true.mp hslot
      rw [hnone i (List.mem_range.mp hi)] at havail
      cases havail
    · right
      exact ⟨prio, proc, q, hlt, hdeq, by rw [hres], by rw [hres], by rw [hres]⟩
  · rcases serve_cases f s.resetSlot with
      ⟨hres, hnone⟩ | ⟨prio, proc, q, hlt, -, -, hdeq, hres⟩
    · left
      refine ⟨ready_eq_nil_iff.mpr ?_, by rw [hres], by rw [hres]; rfl,
        by rw [hres]; rfl⟩
      intro i hi
      by_contra hne
      have := (available_resetSlot hi).mpr hne
      rw [hnone i hi] at this
      cases this
    · right
      exact ⟨prio, proc, q, hlt, hdeq, by rw [hres], by rw [hres]; rfl,
        by rw [hres]; rfl⟩

/-- What `get_mlq_proc` does to the ready processes. -/
theorem ready_getMlqProc (s : MlqState P) :
    (s.ready = [] ∧ (getMlqProc f s).1 = none ∧ (getMlqProc f s).2.ready = []) ∨
    ∃ proc, (getMlqProc f s).1 = some proc ∧
      s.ready.Perm (proc :: (getMlqProc f s).2.ready) := by
  rcases getMlqProc_cases f s with
    ⟨hnil, hnone, hsame, -⟩ | ⟨prio, proc, q, hlt, hdeq, hsome, hqueue, -⟩
  · left
    refine ⟨hnil, hnone, ?_⟩
    rw [ready, hsame]
    exact hnil
  · right
    refine ⟨proc, hsome, ?_⟩
    have hback : s.ready = (List.range maxPrio).flatMap
        (Function.update (fun i => ((getMlqProc f s).2.mlqReadyQueue i).toList)
          prio (s.mlqReadyQueue prio).toList) := by
      rw [hqueue, toList_update, Function.update_idem,
        Function.update_eq_self prio (fun i => (s.mlqReadyQueue i).toList)]
      rfl
    rw [hback]
    refine flatMap_update_perm hlt ?_
    rw [hqueue, Function.update_self]
    exact QueueT.dequeue_perm hdeq

end MlqState
end Sched
end Hdh
