import Hdh.Sched.Retention
import Hdh.Sched.Slots

/-!
# The levels as priorities

A process that is taken from a level takes a slot of it, and brings it back when it is put
back.  A level therefore lacks at most as many of its `MAX_PRIO - prio` slots as it has
processes that are not in its queue: a level with no more processes than slots has a slot
whenever it has a process to serve.

Main results:

- Theorem `OwnLevels.step`: each process stays in the queues of its level.
- Theorem `slot_lack_step`: what a level lacks of its slots.
- Theorem `got_first`: a process is taken from the first level that has one.
-/

namespace Hdh
namespace Sched

variable {C P : Type} [DecidableEq C] [DecidableEq P]

/-! ## The sizes of the queues -/

omit [DecidableEq P] in
/-- `enqueue` adds one process at most. -/
theorem QueueT.size_enqueue_le (q : QueueT P) (p : P) : (q.enqueue p).size ≤ q.size + 1 := by
  rw [← QueueT.length_toList, QueueT.toList_enqueue]
  split_ifs <;> simp

omit [DecidableEq P] in
/-- `dequeue` takes one away. -/
theorem QueueT.size_dequeue {priority : P → Nat} {q q' : QueueT P} {p : P}
    (h : q.dequeue priority = some (p, q')) : q.size = q'.size + 1 := by
  have hlength := (QueueT.dequeue_perm h).length_eq
  simpa using hlength

omit [DecidableEq P] in
/-- The processes of a level, among those that are ready. -/
theorem MlqState.sublist_ready (s : MlqState P) {i : Nat} (hi : i < maxPrio) :
    (s.mlqReadyQueue i).toList.Sublist s.ready := by
  rw [MlqState.ready, List.flatMap_def]
  exact List.sublist_flatten_of_mem (List.mem_map.mpr ⟨i, List.mem_range.mpr hi, rfl⟩)

namespace Dispatch

variable {f : PcbFields P} {s s' : Dispatch C P}

/-! ## The level of a process -/

variable (f) in
/-- A process that is ready is in the queue of its own level. -/
def OwnLevels (s : Dispatch C P) : Prop :=
  ∀ i < maxPrio, ∀ p ∈ (s.mlq.mlqReadyQueue i).toList, f.prio p = i

omit [DecidableEq C] [DecidableEq P] in
/-- All queues are empty at the beginning. -/
theorem ownLevels_boot : OwnLevels f (boot : Dispatch C P) := by
  intro i _ p hp
  simp [boot, MlqState.initScheduler] at hp

omit [DecidableEq P] in
/-- What is in the queues after an insertion. -/
theorem mem_of_mem_enter {m : MlqState P} {p r : P} {i : Nat}
    (h : r ∈ ((m.enter f p).mlqReadyQueue i).toList) :
    r ∈ (m.mlqReadyQueue i).toList ∨ r = p ∧ i = f.prio p := by
  unfold MlqState.enter at h
  by_cases hi : i = f.prio p
  · subst hi
    simp only [Function.update_self, QueueT.toList_enqueue] at h
    split_ifs at h
    · exact (List.mem_append.mp h).imp_right fun hp => ⟨List.mem_singleton.mp hp, rfl⟩
    · exact Or.inl h
  · simp only [Function.update_of_ne hi] at h
    exact Or.inl h

omit [DecidableEq P] in
/-- What is left in the queues after a removal. -/
theorem mem_of_mem_take {m : MlqState P} {p r : P} {q : QueueT P} {prio i : Nat}
    (hdeq : (m.mlqReadyQueue prio).dequeue f.priority = some (p, q))
    (h : r ∈ ((m.refill.take prio p q).mlqReadyQueue i).toList) :
    r ∈ (m.mlqReadyQueue i).toList := by
  simp only [MlqState.take, MlqState.refill_mlqReadyQueue] at h
  by_cases hi : i = prio
  · subst hi
    rw [Function.update_self] at h
    exact (QueueT.dequeue_perm hdeq).mem_iff.mpr (List.mem_cons_of_mem _ h)
  · rwa [Function.update_of_ne hi] at h

/-- Every call leaves each process on its own level. -/
theorem OwnLevels.step (h : OwnLevels f s) {a : DispatchAct C P} {v : Seen P}
    (heffect : Effect f s a v s') : OwnLevels f s' := by
  intro i hi p hp
  cases heffect with
  | added =>
      rcases mem_of_mem_enter hp with hp | ⟨rfl, rfl⟩
      · exact h i hi p hp
      · rfl
  | idle => exact h i hi p hp
  | got _ _ _ _ hdeq => exact h i hi p (mem_of_mem_take hdeq hp)
  | put =>
      rcases mem_of_mem_enter (m := s.mlq) hp with hp | ⟨rfl, rfl⟩
      · exact h i hi p hp
      · rfl
  | finished => exact h i hi p hp

/-! ## The slots that a level lacks -/

/-- The process that a step adds to a level, if any. -/
def joins (f : PcbFields P) (prio : Nat) : DispatchAct C P → Nat
  | .addProc p => if f.prio p = prio then 1 else 0
  | _ => 0

/-- Of the `count` processes of a level, those that are not in its queue are at least as
many as the slots that the level lacks. -/
def Stocked (s : Dispatch C P) (prio count : Nat) : Prop :=
  budget prio + (s.mlq.mlqReadyQueue prio).size ≤ s.mlq.slot prio + count

omit [DecidableEq C] [DecidableEq P] in
/-- All slots are there at the beginning. -/
theorem stocked_boot (prio : Nat) : Stocked (boot : Dispatch C P) prio 0 := by
  simp [Stocked, boot, MlqState.initScheduler, QueueT.cleared, budget]

omit [DecidableEq C] [DecidableEq P] in
/-- A level grows by the processes of its own priority. -/
theorem size_enter_le {m : MlqState P} {p : P} {prio : Nat} :
    ((m.enter f p).mlqReadyQueue prio).size ≤
      (m.mlqReadyQueue prio).size + if f.prio p = prio then 1 else 0 := by
  unfold MlqState.enter
  by_cases hprio : f.prio p = prio
  · subst hprio
    simpa using QueueT.size_enqueue_le _ p
  · simp [Function.update_of_ne (Ne.symm hprio), hprio]

/-- Every call keeps the count, to which the process is added that joins the level. -/
theorem Stocked.step {prio count : Nat} (h : Stocked s prio count) (hprio : prio < maxPrio)
    (hsize : (s.mlq.mlqReadyQueue prio).size ≤ count) {a : DispatchAct C P} {v : Seen P}
    (heffect : Effect f s a v s') : Stocked s' prio (count + joins f prio a) := by
  unfold Stocked at h ⊢
  cases heffect with
  | @added p =>
      have hle : ((s.mlq.enter f p).mlqReadyQueue prio).size ≤ _ := size_enter_le
      have hslot : (s.mlq.enter f p).slot = s.mlq.slot := rfl
      simp only [hslot, joins]
      split_ifs at hle ⊢ <;> omega
  | idle hhold hready =>
      have hslot : s.mlq.resetSlot.slot prio = budget prio := by
        simp [MlqState.resetSlot, hprio, budget]
      have hqueue : s.mlq.resetSlot.mlqReadyQueue = s.mlq.mlqReadyQueue := rfl
      simp only [hslot, hqueue, joins]
      omega
  | @got c p i q hhold hi havail hfirst hdeq =>
      have hrefill := refill_slot (s := s) hprio
      have hstock : budget prio + (s.mlq.mlqReadyQueue prio).size ≤
          s.mlq.refill.slot prio + count := by
        rw [hrefill]
        split_ifs <;> omega
      have htake := update_slot s.mlq.refill.slot i prio (-1)
      rw [← Int.sub_eq_add_neg] at htake
      simp only [MlqState.take, htake, MlqState.refill_mlqReadyQueue, joins]
      by_cases hip : i = prio
      · subst hip
        have hsize := QueueT.size_dequeue hdeq
        simp only [Function.update_self, if_true]
        omega
      · simp only [Function.update_of_ne (Ne.symm hip), if_neg hip]
        omega
  | @put c p =>
      have hle : ((s.mlq.enter f p).mlqReadyQueue prio).size ≤ _ := size_enter_le
      simp only [MlqState.putBack, update_slot, joins]
      split_ifs at hle ⊢ <;> omega
  | finished => simpa [joins] using h

/-! ## The level that is served -/

omit [DecidableEq C] [DecidableEq P] in
/-- A level with no more processes than slots has a slot for each process in its queue. -/
theorem Stocked.available_iff {prio count : Nat} (h : Stocked s prio count)
    (hcount : (count : Int) ≤ budget prio) :
    s.mlq.available prio = true ↔ (s.mlq.mlqReadyQueue prio).toList ≠ [] := by
  rw [MlqState.available_iff, and_iff_right_iff_imp]
  intro hne
  have hpos : 0 < (s.mlq.mlqReadyQueue prio).size := by
    rw [← QueueT.length_toList]
    exact List.length_pos_of_ne_nil hne
  unfold Stocked at h
  omega

/-- A process is taken from the first level that has one, and no slot is reset. -/
theorem got_first {count : Nat → Nat} (hown : OwnLevels f s)
    (hstock : ∀ i < maxPrio, Stocked s i (count i))
    (hcount : ∀ i < maxPrio, (count i : Int) ≤ budget i) {c : C} {p : P}
    (hstep : step f s (.getProc c) = some s') (hgot : s'.hold c = some p) :
    s.mlq.hasSlot = true ∧ p ∈ s.mlq.ready ∧ ∀ q ∈ s.mlq.ready, f.prio p ≤ f.prio q := by
  have havail : ∀ i < maxPrio, (s.mlq.available i = true ↔ _) :=
    fun i hi => (hstock i hi).available_iff (hcount i hi)
  have heffect := effect_of_step hstep
  generalize observe f s (.getProc c) = v at heffect
  cases heffect with
  | idle hhold =>
      rw [show s.hold c = some p from hgot] at hhold
      cases hhold
  | @got _ r prio q _ hprio _ hfirst hdeq =>
      obtain rfl : r = p := by simpa using hgot
      have hmem : r ∈ (s.mlq.mlqReadyQueue prio).toList :=
        (QueueT.dequeue_perm hdeq).mem_iff.mpr (List.mem_cons_self ..)
      have hslot : s.mlq.hasSlot = true :=
        List.any_eq_true.mpr ⟨prio, List.mem_range.mpr hprio,
          (havail prio hprio).mpr (List.ne_nil_of_mem hmem)⟩
      refine ⟨hslot, MlqState.mem_ready_iff.mpr ⟨prio, hprio, hmem⟩, ?_⟩
      intro x hx
      obtain ⟨i, hi, hxi⟩ := MlqState.mem_ready_iff.mp hx
      rw [hown prio hprio r hmem, hown i hi x hxi]
      by_contra hlt
      -- the slots are those of the state, and the level before is empty
      have hempty := hfirst i (Nat.not_le.mp hlt)
      rw [MlqState.refill, if_pos hslot, (havail i hi).mpr (List.ne_nil_of_mem hxi)] at hempty
      cases hempty

end Dispatch
end Sched
end Hdh
