import Hdh.Sched.RunningList

/-!
# What completions leave behind

`cpu_routine` frees a finished process and does not take it off `running_list`.  As long as
the list has room, and no new PCB gets the address of one that is still on the list, nothing
else is lost: the list has the processes that the CPUs hold, and a cell for each process
that has finished.  After `MAX_QUEUE_SIZE` completions there is no room for ever.

Main results:

- Theorem `Leftover.step`: what a step does to the processes on the list.
- Theorem `completed_stay`: the list of a run with completions, and its end.
-/

namespace Hdh
namespace Sched
namespace Dispatch

variable {C P : Type} [DecidableEq C] [DecidableEq P] {f : PcbFields P} {s s' : Dispatch C P}

/-- The process that finishes. -/
def completedBy : Event C P → List P
  | (.finish _, v) => v.pcb.toList
  | _ => []

/-- The processes that have finished, in order. -/
def completed (es : List (Event C P)) : List P :=
  es.flatMap completedBy

/-- The address of a new PCB is not that of one on the list. -/
def FreshPcb (s : Dispatch C P) : DispatchAct C P → Prop
  | .addProc p => p ∉ s.mlq.runningList.toList
  | _ => True

/-- Moreover, a process that is dispatched finds room in the list. -/
def KeepsEntries (s : Dispatch C P) : DispatchAct C P → Prop
  | .addProc p => p ∉ s.mlq.runningList.toList
  | .getProc _ => s.mlq.ready ≠ [] → s.mlq.runningList.size < maxQueueSize
  | _ => True

/-- The list has the processes on the CPUs and the finished ones, whose PCBs are not in use
any more. -/
structure Leftover (ps : List P) (s : Dispatch C P) : Prop where
  entries : Entries ps s
  freed : ∀ p ∈ ps, s.alive p = false
  nodup : ps.Nodup

variable {ps : List P}

omit [DecidableEq C] [DecidableEq P] in
/-- Nothing has finished at the beginning. -/
theorem leftover_boot : Leftover [] (boot : Dispatch C P) :=
  ⟨exactList_iff.mp exactList_boot, by simp, List.nodup_nil⟩

omit [DecidableEq C] [DecidableEq P] in
/-- A PCB that is in use is not one that has finished. -/
theorem Leftover.not_mem (h : Leftover ps s) {p : P} (halive : s.alive p = true) : p ∉ ps := by
  intro hmem
  rw [h.freed p hmem] at halive
  cases halive

omit [DecidableEq C] in
/-- A new PCB is none of those on the list. -/
theorem Leftover.added (h : Leftover ps s) {p : P} (hfresh : FreshPcb s (.addProc p))
    (hlist : s'.mlq.runningList = s.mlq.runningList) (hhold : s'.hold = s.hold)
    (halive : s'.alive = Function.update s.alive p true) : Leftover ps s' := by
  refine ⟨⟨?_, ?_⟩, ?_, h.nodup⟩
  · rw [hlist]
    exact h.entries.nodup
  · rw [hlist, hhold]
    exact h.entries.mem_iff
  · intro q hq
    have hqp : q ≠ p := by
      rintro rfl
      exact hfresh ((h.entries.mem_iff q).mpr (Or.inr hq))
    rw [halive, Function.update_of_ne hqp]
    exact h.freed q hq

/-- A process that finishes joins the others. -/
theorem Leftover.finished (h : Leftover ps s) (hexcl : Exclusive s) {c : C} {p : P}
    (hhold : s.hold c = some p) (hlist : s'.mlq.runningList = s.mlq.runningList)
    (hhold' : s'.hold = Function.update s.hold c none)
    (halive : s'.alive = Function.update s.alive p false) : Leftover (ps ++ [p]) s' := by
  have hnew := h.not_mem (hexcl.hold_alive c p hhold)
  refine ⟨h.entries.finished hhold hlist hhold', ?_, ?_⟩
  · intro q hq
    rw [halive]
    rcases List.mem_append.mp hq with hq | hq
    · have hqp : q ≠ p := ne_of_mem_of_not_mem hq hnew
      rw [Function.update_of_ne hqp]
      exact h.freed q hq
    · rw [List.mem_singleton.mp hq, Function.update_self]
  · refine List.nodup_append.mpr ⟨h.nodup, List.nodup_singleton p, ?_⟩
    rintro q hq r hr rfl
    exact hnew (List.mem_singleton.mp hr ▸ hq)

/-- What a step does to the processes on the list. -/
theorem Leftover.step (h : Leftover ps s) (hexcl : Exclusive s) {e : Event C P}
    (hcall : Called f KeepsEntries s e s') : Leftover (ps ++ completedBy e) s' := by
  have heffect := effect_of_called hcall
  have hkeep := hcall.1
  obtain ⟨a, v⟩ := e
  simp only at heffect hkeep
  cases heffect with
  | added =>
      simp only [completedBy, List.append_nil]
      exact h.added hkeep rfl rfl rfl
  | idle =>
      simp only [completedBy, List.append_nil]
      exact ⟨⟨h.entries.nodup, h.entries.mem_iff⟩, h.freed, h.nodup⟩
  | got hhold hprio havail hfirst hdeq =>
      simp only [completedBy, List.append_nil]
      have hready := mem_ready_of_dequeue hprio hdeq
      refine ⟨?_, h.freed, h.nodup⟩
      rw [h.entries.got_iff hexcl (h.not_mem (hexcl.ready_alive _ hready)) hhold hready
        (by simp [MlqState.take]) rfl]
      exact hkeep (List.ne_nil_of_mem hready)
  | put hhold =>
      simp only [completedBy, List.append_nil]
      refine ⟨?_, h.freed, h.nodup⟩
      exact h.entries.put hexcl (h.not_mem (hexcl.hold_alive _ _ hhold)) hhold rfl rfl
  | finished hhold => exact h.finished hexcl hhold rfl rfl rfl

/-- What a run has left on the list. -/
theorem leftover_of_run {es : List (Event C P)}
    (hrun : Lts.Run (Called f KeepsEntries) boot es s) : Leftover (completed es) s := by
  refine hrun.history_of (I := fun es s => Leftover (completed es) s)
    (fun _ _ h => exclusive_of_calls h) leftover_boot ?_
  intro es s e s' hexcl h hcall
  rw [completed, List.flatMap_append, List.flatMap_singleton]
  exact h.step hexcl hcall

omit [DecidableEq C] [DecidableEq P] in
/-- The size of the list is the number of the CPUs that hold a process and of the processes
that have finished. -/
theorem Leftover.size_eq (h : Leftover ps s) (hexcl : Exclusive s) {cs : List C}
    (hcs : cs.Nodup) (hbusy : ∀ c, c ∈ cs ↔ s.hold c ≠ none) :
    s.mlq.runningList.size = cs.length + ps.length := by
  have hsome : ∀ c ∈ cs, (s.hold c).isSome := by
    intro c hc
    exact Option.isSome_iff_ne_none.mpr ((hbusy c).mp hc)
  have hheld : ∀ p, p ∈ cs.filterMap s.hold ↔ ∃ c, s.hold c = some p := by
    intro p
    rw [List.mem_filterMap]
    constructor
    · rintro ⟨c, -, hc⟩
      exact ⟨c, hc⟩
    · rintro ⟨c, hc⟩
      exact ⟨c, (hbusy c).mpr (by simp [hc]), hc⟩
  have hnodup : (cs.filterMap s.hold ++ ps).Nodup := by
    refine List.nodup_append.mpr ⟨hcs.filterMap ?_, h.nodup, ?_⟩
    · intro c d p hc hd
      exact hexcl.hold_inj c d p hc hd
    · rintro p hp q hq rfl
      obtain ⟨c, hc⟩ := (hheld p).mp hp
      exact h.not_mem (hexcl.hold_alive c p hc) hq
  have hperm : s.mlq.runningList.toList.Perm (cs.filterMap s.hold ++ ps) := by
    rw [List.perm_ext_iff_of_nodup h.entries.nodup hnodup]
    intro p
    rw [h.entries.mem_iff, List.mem_append, hheld]
  rw [← QueueT.length_toList, hperm.length_eq, List.length_append,
    List.filterMap_length_eq_length.mpr hsome]

/-! ## The list that is full -/

/-- The list is full of finished processes. -/
structure Stuck (s : Dispatch C P) : Prop where
  full : s.mlq.runningList.size = maxQueueSize
  freed : ∀ p ∈ s.mlq.runningList.toList, s.alive p = false

/-- Such a list does not change any more. -/
theorem Stuck.step (h : Stuck s) (hexcl : Exclusive s) {e : Event C P}
    (hcall : Called f FreshPcb s e s') :
    Stuck s' ∧ s'.mlq.runningList.toList = s.mlq.runningList.toList := by
  have heffect := effect_of_called hcall
  have hfresh := hcall.1
  obtain ⟨a, v⟩ := e
  have hkeep : ∀ t : Dispatch C P, t.mlq.runningList.toList = s.mlq.runningList.toList →
      (∀ p ∈ s.mlq.runningList.toList, t.alive p = false) →
      Stuck t ∧ t.mlq.runningList.toList = s.mlq.runningList.toList := by
    intro t hlist hfreed
    refine ⟨⟨?_, by rwa [hlist]⟩, hlist⟩
    rw [← QueueT.length_toList, hlist, QueueT.length_toList, h.full]
  simp only at heffect hfresh
  cases heffect with
  | added =>
      refine hkeep _ rfl fun q hq => ?_
      exact (Function.update_of_ne (ne_of_mem_of_not_mem hq hfresh) _ _).trans (h.freed q hq)
  | idle => exact hkeep _ rfl h.freed
  | @got c p =>
      refine hkeep _ ?_ h.freed
      have hfull : ¬ s.mlq.runningList.size < maxQueueSize := by
        rw [h.full]
        exact Nat.lt_irrefl _
      simp only [MlqState.take, MlqState.refill_runningList, QueueT.toList_enqueue,
        if_neg hfull]
  | @put c p hhold =>
      refine hkeep _ ?_ h.freed
      have hnot : p ∉ s.mlq.runningList.toList := by
        intro hmem
        have halive := hexcl.hold_alive c p hhold
        rw [h.freed p hmem] at halive
        cases halive
      rw [MlqState.putBack, QueueT.toList_purgequeue, List.erase_of_not_mem hnot]
  | @finished c p =>
      refine hkeep _ rfl fun q hq => ?_
      by_cases hqp : q = p
      · simp only [hqp, Function.update_self]
      · simp only [Function.update_of_ne hqp]
        exact h.freed q hq

/-- The full list is the same ever after. -/
theorem stuck_of_run {es : List (Event C P)} (h : Stuck s) (hexcl : Exclusive s)
    (hrun : Lts.Run (Called f FreshPcb) s es s') :
    (Stuck s' ∧ Exclusive s') ∧ s'.mlq.runningList.toList = s.mlq.runningList.toList := by
  refine hrun.invariant (I := fun t => (Stuck t ∧ Exclusive t) ∧
    t.mlq.runningList.toList = s.mlq.runningList.toList) ⟨⟨h, hexcl⟩, rfl⟩ ?_
  rintro t e t' ⟨⟨hstuck, hexcl⟩, hlist⟩ hcall
  obtain ⟨hstuck', hlist'⟩ := hstuck.step hexcl hcall
  exact ⟨⟨hstuck', hexcl.step (step_of_called hcall)⟩, hlist'.trans hlist⟩

/-- In a run with completions, the running list has the processes that the CPUs hold and
those that have finished, each of them once and nothing else, as long as a process that is
dispatched finds room and no new PCB has the address of one on the list.  So its size counts
both, at most `MAX_QUEUE_SIZE` processes can finish in such a run, and when as many have,
the list is theirs: no process that a CPU holds is on it ever after. -/
theorem completed_stay {es : List (Event C P)}
    (hrun : Lts.Run (Called f KeepsEntries) boot es s) :
    Entries (completed es) s ∧
      (∀ cs : List C, cs.Nodup → (∀ c, c ∈ cs ↔ s.hold c ≠ none) →
        s.mlq.runningList.size = cs.length + (completed es).length) ∧
      (completed es).length ≤ maxQueueSize ∧
      ((completed es).length = maxQueueSize → ∀ es' s',
        Lts.Run (Called f FreshPcb) s es' s' →
          s'.mlq.runningList.toList = s.mlq.runningList.toList ∧
            ∀ c p, s'.hold c = some p → p ∉ s'.mlq.runningList.toList) := by
  have h := leftover_of_run hrun
  have hexcl := exclusive_of_calls hrun
  have hsub : completed es ⊆ s.mlq.runningList.toList :=
    fun p hp => (h.entries.mem_iff p).mpr (Or.inr hp)
  have hle := (List.subperm_of_subset h.nodup hsub).length_le
  rw [QueueT.length_toList] at hle
  refine ⟨h.entries, fun cs hcs hbusy => h.size_eq hexcl hcs hbusy,
    hle.trans s.mlq.runningList.size_le, ?_⟩
  intro hmany es' s' hrun'
  have hfull : s.mlq.runningList.size = maxQueueSize :=
    Nat.le_antisymm s.mlq.runningList.size_le (hmany ▸ hle)
  have hperm := (List.subperm_of_subset h.nodup hsub).perm_of_length_le
    (by rw [QueueT.length_toList, hfull, hmany])
  have hstuck : Stuck s := ⟨hfull, fun p hp => h.freed p (hperm.mem_iff.mpr hp)⟩
  obtain ⟨⟨hstuck', hexcl'⟩, hlist⟩ := stuck_of_run hstuck hexcl hrun'
  refine ⟨hlist, ?_⟩
  intro c p hc hmem
  have halive := hexcl'.hold_alive c p hc
  rw [hstuck'.freed p hmem] at halive
  cases halive

instance (s : Dispatch C P) (a : DispatchAct C P) : Decidable (KeepsEntries s a) :=
  match a with
  | .addProc p => inferInstanceAs (Decidable (¬ p ∈ s.mlq.runningList.toList))
  | .getProc _ => inferInstanceAs (Decidable (s.mlq.ready ≠ [] → _))
  | .putProc _ => instDecidableTrue
  | .finish _ => instDecidableTrue

/-- A CPU has finished one process and holds the next one. -/
theorem completed_stay_one_cpu :
    ∃ (es : List (Event (Fin 1) (Fin 2))) (s : Dispatch (Fin 1) (Fin 2)),
      Lts.Run (Called ⟨fun _ => 0, fun _ => 0⟩ KeepsEntries) boot es s ∧
      (completed es = [0] ∧ s.hold 0 = some 1 ∧ s.mlq.runningList.toList = [0, 1]) ∧
      Entries (completed es) s := by
  obtain ⟨es, s, hrun, hobs⟩ := Lts.record_observe
    (fun (s : Dispatch (Fin 1) (Fin 2)) a _ => KeepsEntries s a)
    (call ⟨fun _ => 0, fun _ => 0⟩) boot
    [.addProc 0, .getProc 0, .finish 0, .addProc 1, .getProc 0]
    (fun es s => (completed es, s.hold 0, s.mlq.runningList.toList))
    (v := ([0], some 1, [0, 1])) (by decide +kernel)
  obtain ⟨hcompleted, hrest⟩ := Prod.mk.inj hobs
  exact ⟨es, s, hrun, ⟨hcompleted, Prod.mk.inj hrest⟩, (completed_stay hrun).1⟩

end Dispatch
end Sched
end Hdh
