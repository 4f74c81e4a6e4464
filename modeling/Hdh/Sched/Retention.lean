import Hdh.Sched.Calls

/-!
# No process is lost

A PCB that is passed to `add_proc` or `put_proc` goes to the ready queue of its
`prio`.  `enqueue` drops it silently when this queue is full, and nothing checks that
`prio` is a level at all: the PCB is kept exactly when its level exists and has room.

Main results:

- Theorems `InOwnLevel.step` and `inOwnLevel_of_inserts`: what a call does to the
  PCBs in the queues of their own `prio`.
- Theorem `never_lost`: no PCB is lost in the runs whose calls find room.
-/

namespace Hdh
namespace Sched

variable {C P : Type} [DecidableEq C] [DecidableEq P]

omit [DecidableEq P] in
theorem QueueT.mem_enqueue_of_mem {q : QueueT P} {p r : P} (h : r ∈ q.toList) :
    r ∈ (q.enqueue p).toList := by
  rw [toList_enqueue]
  split_ifs
  · exact List.mem_append_left _ h
  · exact h

omit [DecidableEq P] in
/-- The PCB that is inserted is in the queue afterwards, when there is room or when it
was there before. -/
theorem QueueT.mem_enqueue_self_iff {q : QueueT P} {p : P} :
    p ∈ (q.enqueue p).toList ↔ q.size < maxQueueSize ∨ p ∈ q.toList := by
  rw [toList_enqueue]
  split_ifs with hroom <;> simp [hroom]

omit [DecidableEq P] in
theorem MlqState.mem_ready_iff {s : MlqState P} {p : P} :
    p ∈ s.ready ↔ ∃ i < maxPrio, p ∈ (s.mlqReadyQueue i).toList := by
  simp [ready]

namespace Dispatch

variable {f : PcbFields P} {s s' : Dispatch C P}

variable (f) in
/-- The PCB is in the ready queue of its own `prio`. -/
def InOwnLevel (s : Dispatch C P) (p : P) : Prop :=
  p ∈ (s.mlq.mlqReadyQueue (f.prio p)).toList

/-- The event passes the PCB to `add_proc` or to `put_proc`. -/
def Inserts (e : Event C P) (p : P) : Prop :=
  match e.1 with
  | .addProc _ => e.2.pcb = some p
  | .putProc _ => e.2.pcb = some p
  | _ => False

/-- The event is a `get_proc` that returns the PCB. -/
def Returns (e : Event C P) (p : P) : Prop :=
  match e.1 with
  | .getProc _ => e.2.pcb = some p
  | _ => False

/-- The PCB has been inserted, and no `get_proc` has returned it since. -/
def Waiting (es : List (Event C P)) (p : P) : Prop :=
  Lts.Since (fun e => Inserts e p) (fun e => Returns e p) es

variable (f) in
/-- The level of the PCB exists and has room. -/
def RoomFor (s : Dispatch C P) (p : P) : Prop :=
  f.prio p < maxPrio ∧ (s.mlq.mlqReadyQueue (f.prio p)).size < maxQueueSize

variable (f) in
/-- A call that inserts a PCB finds room for it. -/
def HasRoom (s : Dispatch C P) : DispatchAct C P → Prop
  | .addProc p => RoomFor f s p
  | .putProc c => ∀ p, s.hold c = some p → RoomFor f s p
  | _ => True

variable (f) in
/-- The step is defined, and the PCB is in its queue afterwards. -/
def Lands (s : Dispatch C P) (a : DispatchAct C P) (p : P) : Prop :=
  ∃ s', step f s a = some s' ∧ InOwnLevel f s' p

/-! ## The queues after a call -/

omit [DecidableEq P] in
/-- An insertion takes nothing out of any level. -/
theorem mem_enter {m : MlqState P} {p r : P} {i : Nat}
    (h : r ∈ (m.mlqReadyQueue i).toList) :
    r ∈ ((m.enter f p).mlqReadyQueue i).toList := by
  unfold MlqState.enter
  by_cases hi : i = f.prio p
  · subst hi
    simp only [Function.update_self]
    exact QueueT.mem_enqueue_of_mem h
  · simp only [Function.update_of_ne hi]
    exact h

omit [DecidableEq P] in
/-- The PCB that is inserted gets to its level, when there is room or when it was there
before. -/
theorem mem_enter_self_iff {m : MlqState P} {p : P} :
    p ∈ ((m.enter f p).mlqReadyQueue (f.prio p)).toList ↔
      (m.mlqReadyQueue (f.prio p)).size < maxQueueSize ∨
        p ∈ (m.mlqReadyQueue (f.prio p)).toList := by
  simp only [MlqState.enter, Function.update_self]
  exact QueueT.mem_enqueue_self_iff

omit [DecidableEq P] in
/-- A PCB that is not the one taken stays in its level. -/
theorem mem_take {m : MlqState P} {p r : P} {q : QueueT P} {prio i : Nat}
    (hdeq : (m.mlqReadyQueue prio).dequeue f.priority = some (p, q)) (hne : r ≠ p)
    (h : r ∈ (m.mlqReadyQueue i).toList) :
    r ∈ ((m.refill.take prio p q).mlqReadyQueue i).toList := by
  simp only [MlqState.take, MlqState.refill_mlqReadyQueue]
  by_cases hi : i = prio
  · subst hi
    rw [Function.update_self]
    have hperm := (QueueT.dequeue_perm hdeq).mem_iff (a := r)
    exact List.mem_of_ne_of_mem hne (hperm.mp h)
  · rwa [Function.update_of_ne hi]

/-- A PCB leaves its queue only by a `get_proc` that returns it. -/
theorem InOwnLevel.step {a : DispatchAct C P} {v : Seen P} {p : P}
    (h : InOwnLevel f s p) (heffect : Effect f s a v s') (hnot : ¬ Returns (a, v) p) :
    InOwnLevel f s' p := by
  cases heffect with
  | added => exact mem_enter h
  | idle => exact h
  | got hhold hprio havail hfirst hdeq =>
      refine mem_take hdeq ?_ h
      rintro rfl
      exact hnot rfl
  | put => exact mem_enter h
  | finished => exact h

/-- A PCB that is inserted is in its queue afterwards, when there is room. -/
theorem inOwnLevel_of_inserts {a : DispatchAct C P} {v : Seen P} {p : P}
    (heffect : Effect f s a v s') (hroom : HasRoom f s a) (hins : Inserts (a, v) p) :
    InOwnLevel f s' p := by
  cases heffect with
  | added =>
      obtain rfl := Option.some.inj hins
      exact mem_enter_self_iff.mpr (Or.inl hroom.2)
  | idle => exact hins.elim
  | got => exact hins.elim
  | put hhold =>
      obtain rfl := Option.some.inj hins
      exact mem_enter_self_iff.mpr (Or.inl (hroom _ hhold).2)
  | finished => exact hins.elim

/-- A PCB that is not freed is ready or held after every call that finds room. -/
theorem present_step {a : DispatchAct C P} {v : Seen P} {p : P}
    (heffect : Effect f s a v s') (hroom : HasRoom f s a)
    (ih : s.alive p = true → InOwnLevel f s p ∨ ∃ c, s.hold c = some p)
    (halive : s'.alive p = true) : InOwnLevel f s' p ∨ ∃ c, s'.hold c = some p := by
  by_cases hins : Inserts (a, v) p
  · exact Or.inl (inOwnLevel_of_inserts heffect hroom hins)
  cases heffect with
  | @added r hnew hprio =>
      have hne : p ≠ r := by
        rintro rfl
        exact hins rfl
      simp only [Function.update_of_ne hne] at halive
      exact (ih halive).imp_left mem_enter
  | idle => exact ih halive
  | @got c r prio q hhold hprio havail hfirst hdeq =>
      by_cases hpr : p = r
      · exact Or.inr ⟨c, by simp [hpr]⟩
      · refine (ih halive).imp (mem_take hdeq hpr) (held_update ?_)
        simp [hhold]
  | @put c r hhold hprio =>
      refine (ih halive).imp mem_enter (held_update ?_)
      exact fun hheld => hins (hhold.symm.trans hheld)
  | @finished c r hhold =>
      have hpr : p ≠ r := by
        rintro rfl
        simp at halive
      simp only [Function.update_of_ne hpr] at halive
      refine (ih halive).imp_right (held_update ?_)
      exact fun hheld => hpr (Option.some.inj (hheld.symm.trans hhold))

/-! ## Runs -/

/-- What has been inserted and not returned is waiting in its queue. -/
theorem inOwnLevel_of_waiting {es : List (Event C P)}
    (hrun : Lts.Run (Called f (HasRoom f)) boot es s) {p : P} (hwaiting : Waiting es p) :
    InOwnLevel f s p := by
  refine hrun.since (Q := fun s => InOwnLevel f s p) ?_ ?_ hwaiting
  · intro s e s' hcall hins
    exact inOwnLevel_of_inserts (effect_of_called hcall) hcall.1 hins
  · intro s e s' hcall hnot hin
    exact hin.step (effect_of_called hcall) hnot

/-- Every PCB is ready or held by a CPU, from its `add_proc` until it is freed. -/
theorem present_of_alive {es : List (Event C P)}
    (hrun : Lts.Run (Called f (HasRoom f)) boot es s) :
    ∀ p, s.alive p = true → InOwnLevel f s p ∨ ∃ c, s.hold c = some p := by
  apply hrun.invariant
    (I := fun s => ∀ p, s.alive p = true → InOwnLevel f s p ∨ ∃ c, s.hold c = some p)
  · intro p halive
    cases halive
  · intro s e s' ih hcall p halive
    exact present_step (effect_of_called hcall) hcall.1 (ih p) halive

omit [DecidableEq C] [DecidableEq P] in
/-- A PCB in the queue of a level is ready. -/
theorem InOwnLevel.mem_ready {p : P} (h : InOwnLevel f s p) (hprio : f.prio p < maxPrio) :
    p ∈ s.mlq.ready :=
  MlqState.mem_ready_iff.mpr ⟨_, hprio, h⟩

/-- A new PCB gets to its queue if and only if there is room for it. -/
theorem lands_addProc_iff (hexcl : Exclusive s) {p : P} (hnew : s.alive p = false) :
    Lands f s (.addProc p) p ↔ RoomFor f s p := by
  constructor
  · rintro ⟨s', hstep, hin⟩
    cases effect_of_step hstep with
    | added _ hprio =>
        rcases mem_enter_self_iff.mp hin with hroom | hmem
        · exact ⟨hprio, hroom⟩
        · have halive := hexcl.ready_alive p (InOwnLevel.mem_ready hmem hprio)
          rw [hnew] at halive
          cases halive
  · rintro ⟨hprio, hroom⟩
    refine ⟨{ s with mlq := s.mlq.enter f p, alive := Function.update s.alive p true },
      ?_, mem_enter_self_iff.mpr (Or.inl hroom)⟩
    simp [step, MlqState.addMlqProc, hnew, hprio, MlqState.enter]

/-- A PCB that a CPU puts back gets to its queue if and only if there is room for it. -/
theorem lands_putProc_iff (hexcl : Exclusive s) {c : C} {p : P}
    (hheld : s.hold c = some p) : Lands f s (.putProc c) p ↔ RoomFor f s p := by
  constructor
  · rintro ⟨s', hstep, hin⟩
    have heffect := effect_of_step hstep
    generalize observe f s (.putProc c) = v at heffect
    cases heffect with
    | put hhold hprio =>
        obtain rfl := Option.some.inj (hhold.symm.trans hheld)
        rcases mem_enter_self_iff.mp hin with hroom | hmem
        · exact ⟨hprio, hroom⟩
        · exact absurd (InOwnLevel.mem_ready hmem hprio) (hexcl.hold_not_ready c _ hheld)
  · rintro ⟨hprio, hroom⟩
    refine ⟨{ s with mlq := s.mlq.putBack f p, hold := Function.update s.hold c none },
      ?_, mem_enter_self_iff.mpr (Or.inl hroom)⟩
    simp [step, MlqState.putMlqProc, hheld, hprio, MlqState.putBack, MlqState.enter]

/-- The scheduler loses no process, as long as the calls that insert one find room: a
PCB that has been inserted is in the queue of its own `prio` until a `get_proc` returns
it, and a PCB that has not been freed is there or held by a CPU.  A call whose level
does not exist or is full is undefined or loses its PCB. -/
theorem never_lost {es : List (Event C P)}
    (hrun : Lts.Run (Called f (HasRoom f)) boot es s) :
    (∀ p, Waiting es p → InOwnLevel f s p) ∧
      (∀ p, s.alive p = true → InOwnLevel f s p ∨ ∃ c, s.hold c = some p) ∧
      (∀ p, s.alive p = false → (Lands f s (.addProc p) p ↔ RoomFor f s p)) ∧
      ∀ c p, s.hold c = some p → (Lands f s (.putProc c) p ↔ RoomFor f s p) := by
  have hexcl := exclusive_of_calls hrun
  refine ⟨fun _ => inOwnLevel_of_waiting hrun, present_of_alive hrun, ?_, ?_⟩
  · intro p hnew
    exact lands_addProc_iff hexcl hnew
  · intro c p hheld
    exact lands_putProc_iff hexcl hheld

instance (s : Dispatch C P) (p : P) : Decidable (RoomFor f s p) :=
  inferInstanceAs (Decidable (_ ∧ _))

instance (s : Dispatch C P) (a : DispatchAct C P) : Decidable (HasRoom f s a) :=
  match a with
  | .addProc p => inferInstanceAs (Decidable (RoomFor f s p))
  | .putProc c => Option.decidableForallMem (p := RoomFor f s) (s.hold c)
  | .getProc _ => instDecidableTrue
  | .finish _ => instDecidableTrue

/-- Two processes of two levels, of which the first has been put back. -/
theorem never_lost_two_levels :
    ∃ (es : List (Event (Fin 1) (Fin 2))) (s : Dispatch (Fin 1) (Fin 2)),
      Lts.Run (Called ⟨fun _ => 0, fun p => p.val⟩ (HasRoom ⟨fun _ => 0, fun p => p.val⟩))
        boot es s ∧
      (∀ p, Waiting es p → InOwnLevel ⟨fun _ => 0, fun p => p.val⟩ s p) ∧
      ∀ p, s.alive p = true →
        InOwnLevel ⟨fun _ => 0, fun p => p.val⟩ s p ∨ ∃ c, s.hold c = some p := by
  obtain ⟨es, s, hrun, -⟩ := Lts.record_observe
    (fun (s : Dispatch (Fin 1) (Fin 2)) a _ => HasRoom ⟨fun _ => 0, fun p => p.val⟩ s a)
    (call ⟨fun _ => 0, fun p => p.val⟩) boot
    [.addProc 0, .addProc 1, .getProc 0, .putProc 0] (fun _ _ => ()) (v := ())
    (by decide +kernel)
  obtain ⟨hwait, hpresent, -⟩ := never_lost hrun
  exact ⟨es, s, hrun, hwait, hpresent⟩

/-- Fifty-one processes of one level are added before a CPU takes the first one: the
last one is neither ready nor held. -/
theorem not_never_lost :
    ¬ ∀ (f : PcbFields (Fin 51)) (es : List (Event (Fin 1) (Fin 51)))
      (s : Dispatch (Fin 1) (Fin 51)), Lts.Run (Called f fun _ _ => True) boot es s →
        (∀ p, Waiting es p → InOwnLevel f s p) ∧
        ∀ p, s.alive p = true → InOwnLevel f s p ∨ ∃ c, s.hold c = some p := by
  intro hclaim
  obtain ⟨es, s, hrun, hobs⟩ := Lts.record_observe
    (fun (_ : Dispatch (Fin 1) (Fin 51)) _ _ => True) (call ⟨fun _ => 0, fun _ => 0⟩) boot
    ((List.finRange 51).map .addProc)
    (fun _ s => (s.alive 50, (s.mlq.mlqReadyQueue 0).toList.contains 50, s.hold 0))
    (v := (true, false, none)) (by decide +kernel)
  obtain ⟨halive, hready, hhold⟩ := by simpa using hobs
  rcases (hclaim _ es s hrun).2 50 halive with hin | ⟨c, hc⟩
  · exact hready hin
  · obtain rfl := Subsingleton.elim c 0
    rw [hhold] at hc
    cases hc

end Dispatch
end Sched
end Hdh
