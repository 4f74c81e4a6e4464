import Hdh.Sched.Calls

/-!
# The slots of the levels

`get_mlq_proc` takes a slot of the level that it serves, `put_mlq_proc` returns the slot
of the level of its process, and `reset_slot` gives every level its `MAX_PRIO - prio`
slots when no level has both a process and a slot.

Main results:

- Theorem `slot_step`: what a call does to the slot counters.
- Theorem `slot_budget`: between two resets a level is served at most `MAX_PRIO - prio`
  times more often than processes are put back to it.
- Theorem `slots_in_range`: the counters stay in their range, as long as no process is
  put back to a level whose counter is at its maximum.
-/

namespace Hdh
namespace Sched
namespace Dispatch

variable {C P : Type} [DecidableEq C] [DecidableEq P]

/-- The slots that `reset_slot` gives a level. -/
def budget (prio : Nat) : Int := (maxPrio : Int) - prio

/-- The event is a `get_proc` that takes a process from the level. -/
def takesFrom (prio : Nat) (e : Event C P) : Bool :=
  match e.1 with
  | .getProc _ => e.2.level == some prio
  | _ => false

/-- The event is a `put_proc` of a process of the level. -/
def putsTo (prio : Nat) (e : Event C P) : Bool :=
  match e.1 with
  | .putProc _ => e.2.level == some prio
  | _ => false

/-- The events from the last execution of `reset_slot` on; all of them when there has
been none. -/
def sinceReset (es : List (Event C P)) : List (Event C P) :=
  es.foldl (fun since e => if e.2.reset then [e] else since ++ [e]) []

/-- The slots of a level that the events have used: one is taken by each `get_proc` and
returned by each `put_proc`. -/
def spent (prio : Nat) (es : List (Event C P)) : Int :=
  es.countP (takesFrom prio) - es.countP (putsTo prio)

omit [DecidableEq C] [DecidableEq P] in
/-- One more event, which may be a reset itself. -/
theorem sinceReset_snoc (es : List (Event C P)) (e : Event C P) :
    sinceReset (es ++ [e]) = if e.2.reset then [e] else sinceReset es ++ [e] := by
  rw [sinceReset, List.foldl_append]
  rfl

omit [DecidableEq C] [DecidableEq P] in
/-- What has been spent in two parts of a run. -/
theorem spent_append (prio : Nat) (es es' : List (Event C P)) :
    spent prio (es ++ es') = spent prio es + spent prio es' := by
  unfold spent
  rw [List.countP_append, List.countP_append]
  omega

omit [DecidableEq C] [DecidableEq P] in
/-- A `get_proc` takes a slot of the level that it serves. -/
theorem spent_getProc (prio : Nat) (c : C) (v : Seen P) :
    spent prio [(.getProc c, v)] = if v.level = some prio then 1 else 0 := by
  by_cases hlevel : v.level = some prio <;> simp [spent, takesFrom, putsTo, hlevel]

omit [DecidableEq C] [DecidableEq P] in
/-- A `put_proc` gives one back. -/
theorem spent_putProc (prio : Nat) (c : C) (v : Seen P) :
    spent prio [(.putProc c, v)] = if v.level = some prio then -1 else 0 := by
  by_cases hlevel : v.level = some prio <;> simp [spent, takesFrom, putsTo, hlevel]

variable {f : PcbFields P} {s s' : Dispatch C P}

/-! ## One call -/

omit [DecidableEq C] [DecidableEq P] in
/-- The slots after the test of `get_mlq_proc`. -/
theorem refill_slot {prio : Nat} (hprio : prio < maxPrio) :
    s.mlq.refill.slot prio = if s.mlq.hasSlot then s.mlq.slot prio else budget prio := by
  unfold MlqState.refill
  split_ifs
  · rfl
  · simp [MlqState.resetSlot, hprio, budget]

omit [DecidableEq C] [DecidableEq P] in
/-- A slot counter after it has been changed by one. -/
theorem update_slot (slot : Nat → Int) (k prio : Nat) (d : Int) :
    Function.update slot k (slot k + d) prio =
      slot prio + if k = prio then d else 0 := by
  by_cases hk : prio = k
  · simp [hk]
  · simp [hk, Ne.symm hk]

/-- What a call does to the slot counters. -/
theorem slot_step {a : DispatchAct C P} {v : Seen P} (heffect : Effect f s a v s')
    {prio : Nat} (hprio : prio < maxPrio) :
    s'.mlq.slot prio =
      (if v.reset then budget prio else s.mlq.slot prio) - spent prio [(a, v)] := by
  cases heffect with
  | added => simp [spent, takesFrom, putsTo, MlqState.enter]
  | idle => simp [spent_getProc, MlqState.resetSlot, hprio, budget]
  | @got c p k q =>
      have htake := update_slot s.mlq.refill.slot k prio (-1)
      rw [← Int.sub_eq_add_neg, refill_slot hprio] at htake
      simp only [MlqState.take, htake, spent_getProc, Option.some.injEq]
      cases s.mlq.hasSlot <;> by_cases hk : k = prio <;> simp [hk] <;> omega
  | @put c p =>
      simp only [MlqState.putBack, update_slot, spent_putProc, Option.some.injEq]
      by_cases hk : f.prio p = prio <;> simp [hk]
  | finished => simp [spent, takesFrom, putsTo]

/-- A level that is served has a slot, after the reset if there is one. -/
theorem slot_pos_of_takesFrom {a : DispatchAct C P} {v : Seen P}
    (heffect : Effect f s a v s') {prio : Nat} (htakes : takesFrom prio (a, v) = true) :
    0 < if v.reset then budget prio else s.mlq.slot prio := by
  cases heffect with
  | added => cases htakes
  | idle => cases htakes
  | @got c p k q hhold hprio havail =>
      obtain rfl : k = prio := by simpa [takesFrom] using htakes
      have hpos := (MlqState.available_iff.mp havail).1
      rw [refill_slot hprio] at hpos
      cases hslot : s.mlq.hasSlot <;> simpa [hslot] using hpos
  | put => cases htakes
  | finished => cases htakes

omit [DecidableEq C] [DecidableEq P] in
/-- An event takes one slot at most. -/
theorem spent_single_le {prio : Nat} {e : Event C P} :
    spent prio [e] ≤ if takesFrom prio e then 1 else 0 := by
  simp only [spent, List.countP_cons, List.countP_nil]
  split_ifs <;> omega

omit [DecidableEq C] [DecidableEq P] in
/-- Every level has a slot. -/
theorem budget_pos {prio : Nat} (hprio : prio < maxPrio) : 0 < budget prio := by
  unfold budget
  omega

/-- No slot counter becomes negative. -/
theorem slot_nonneg_step {a : DispatchAct C P} {v : Seen P}
    (heffect : Effect f s a v s') {prio : Nat} (hprio : prio < maxPrio)
    (h : 0 ≤ s.mlq.slot prio) : 0 ≤ s'.mlq.slot prio := by
  have hspent : spent prio [(a, v)] ≤ if takesFrom prio (a, v) then 1 else 0 :=
    spent_single_le
  have hpos := budget_pos hprio
  rw [slot_step heffect hprio]
  by_cases htakes : takesFrom prio (a, v) = true
  · have hslot := slot_pos_of_takesFrom heffect htakes
    rw [if_pos htakes] at hspent
    omega
  · rw [if_neg htakes] at hspent
    split_ifs <;> omega

/-! ## The budget of a level -/

/-- The slot counter of a level is its budget less what has been spent since the last
reset, and it is not negative. -/
theorem slot_eq_of_run {ok : Dispatch C P → DispatchAct C P → Prop}
    {es : List (Event C P)} (hrun : Lts.Run (Called f ok) boot es s) {prio : Nat}
    (hprio : prio < maxPrio) :
    s.mlq.slot prio = budget prio - spent prio (sinceReset es) ∧ 0 ≤ s.mlq.slot prio := by
  refine hrun.history (I := fun es s =>
    s.mlq.slot prio = budget prio - spent prio (sinceReset es) ∧ 0 ≤ s.mlq.slot prio) ?_ ?_
  · have hpos := budget_pos hprio
    have hslot : (boot : Dispatch C P).mlq.slot prio = budget prio := rfl
    rw [hslot]
    exact ⟨by simp [spent, sinceReset], by omega⟩
  · rintro es s ⟨a, v⟩ s' ⟨hslot, hnonneg⟩ hcall
    have heffect : Effect f s a v s' := effect_of_called hcall
    refine ⟨?_, slot_nonneg_step heffect hprio hnonneg⟩
    rw [slot_step heffect hprio, sinceReset_snoc]
    split_ifs
    · rfl
    · rw [spent_append, hslot]
      omega

/-- A `get_proc` serves another level than one without slots, when some level has a
process and a slot. -/
theorem served_ne_of_slot_zero {ok : Dispatch C P → DispatchAct C P → Prop} {c : C}
    {v : Seen P} (hcall : Called f ok s (.getProc c, v) s') {prio i : Nat}
    (hzero : s.mlq.slot prio = 0) (hi : i < maxPrio) (havail : s.mlq.available i = true) :
    v.reset = false ∧ ∃ k, v.level = some k ∧ k ≠ prio ∧ s.mlq.available k = true := by
  have hslot : s.mlq.hasSlot = true :=
    List.any_eq_true.mpr ⟨i, List.mem_range.mpr hi, havail⟩
  have hrefill : s.mlq.refill = s.mlq := if_pos hslot
  have heffect := effect_of_called hcall
  cases heffect with
  | idle hhold hready =>
      have hempty := MlqState.ready_eq_nil_iff.mp hready i hi
      exact absurd hempty (MlqState.available_iff.mp havail).2
  | @got _ p k q hhold hprio hserved =>
      rw [hrefill] at hserved
      refine ⟨by simp [hslot], k, rfl, ?_, hserved⟩
      rintro rfl
      have hpos := (MlqState.available_iff.mp hserved).1
      omega

/-- The slot budget: since the last reset, or since the initialisation, a level has been
served at most `MAX_PRIO - prio` times more often than a process has been put back to
it.  A level that has used this up yields: as long as some level has a process and a
slot, `get_proc` serves such a level, and not the one that has used up its slots. -/
theorem slot_budget {es : List (Event C P)}
    (hrun : Lts.Run (Called f fun _ _ => True) boot es s) {prio : Nat}
    (hprio : prio < maxPrio) :
    ((sinceReset es).countP (takesFrom prio) : Int) ≤
        (maxPrio : Int) - prio + (sinceReset es).countP (putsTo prio) ∧
      (((sinceReset es).countP (takesFrom prio) : Int) =
          (maxPrio : Int) - prio + (sinceReset es).countP (putsTo prio) →
        ∀ c v s', Called f (fun _ _ => True) s (.getProc c, v) s' →
          (∃ i < maxPrio, s.mlq.available i = true) →
          v.reset = false ∧
            ∃ k, v.level = some k ∧ k ≠ prio ∧ s.mlq.available k = true) := by
  obtain ⟨hslot, hnonneg⟩ := slot_eq_of_run hrun hprio
  unfold budget spent at hslot
  constructor
  · omega
  · rintro hused c v s' hcall ⟨i, hi, havail⟩
    exact served_ne_of_slot_zero hcall (by omega) hi havail

/-- The level 138 has two slots: it has been served twice when the third `get_proc`
serves the level below. -/
theorem slot_budget_two_levels :
    ∃ (es : List (Event (Fin 3) (Fin 3))) (s : Dispatch (Fin 3) (Fin 3)),
      Lts.Run (Called ⟨fun _ => 0, fun p => if p = 2 then 139 else 138⟩ fun _ _ => True)
        boot es s ∧
      (sinceReset es).countP (takesFrom 138) = 2 ∧
      ((sinceReset es).countP (takesFrom 138) : Int) ≤
        (maxPrio : Int) - (138 : Nat) + (sinceReset es).countP (putsTo 138) := by
  obtain ⟨es, s, hrun, hobs⟩ := Lts.record_observe
    (fun (_ : Dispatch (Fin 3) (Fin 3)) _ _ => True)
    (call ⟨fun _ => 0, fun p => if p = 2 then 139 else 138⟩) boot
    [.addProc 0, .addProc 1, .addProc 2, .getProc 0, .getProc 1, .getProc 2]
    (fun es _ => (sinceReset es).countP (takesFrom 138)) (v := 2) (by decide +kernel)
  exact ⟨es, s, hrun, hobs, (slot_budget hrun (by decide : 138 < maxPrio)).1⟩

/-- The level 139 has one slot, and `put_proc` returns it: the only process is
dispatched twice without a reset. -/
theorem not_slot_budget :
    ¬ ∀ (f : PcbFields (Fin 1)) (es : List (Event (Fin 1) (Fin 1)))
      (s : Dispatch (Fin 1) (Fin 1)), Lts.Run (Called f fun _ _ => True) boot es s →
        ∀ prio < maxPrio, (sinceReset es).countP (takesFrom prio) ≤ maxPrio - prio := by
  intro hclaim
  obtain ⟨es, s, hrun, hobs⟩ := Lts.record_observe
    (fun (_ : Dispatch (Fin 1) (Fin 1)) _ _ => True) (call ⟨fun _ => 0, fun _ => 139⟩) boot
    [.addProc 0, .getProc 0, .putProc 0, .getProc 0]
    (fun es _ => (sinceReset es).countP (takesFrom 139)) (v := 2) (by decide +kernel)
  have hle := hclaim _ es s hrun 139 (by decide)
  rw [hobs] at hle
  exact absurd hle (by decide)

/-! ## The range of the counters -/

/-- The counters are in the range that the comment on `get_mlq_proc` gives. -/
def SlotsInRange (s : Dispatch C P) : Prop :=
  ∀ prio < maxPrio, 0 ≤ s.mlq.slot prio ∧ s.mlq.slot prio ≤ (maxPrio : Int) - prio

variable (f) in
/-- The counter of the level that a process is put back to is below its maximum. -/
def PutsBelow (s : Dispatch C P) : DispatchAct C P → Prop
  | .putProc c => ∀ p, s.hold c = some p →
      s.mlq.slot (f.prio p) < (maxPrio : Int) - f.prio p
  | _ => True

/-- Which steps keep the counters in their range. -/
theorem slotsInRange_step_iff (h : SlotsInRange s) {a : DispatchAct C P} {v : Seen P}
    (heffect : Effect f s a v s') : SlotsInRange s' ↔ PutsBelow f s a := by
  have hnonneg : ∀ prio < maxPrio, 0 ≤ s'.mlq.slot prio := fun prio hprio =>
    slot_nonneg_step heffect hprio (h prio hprio).1
  -- a call that puts nothing back raises no counter above its budget
  have hkeep : (∀ prio, putsTo prio (a, v) = false) → SlotsInRange s' := by
    intro hno prio hprio
    refine ⟨hnonneg prio hprio, ?_⟩
    have hslot := slot_step heffect hprio
    have hspent : 0 ≤ spent prio [(a, v)] := by
      simp only [spent, List.countP_cons, List.countP_nil, hno prio, Bool.false_eq_true,
        if_false]
      split_ifs <;> omega
    have hle := (h prio hprio).2
    unfold budget at hslot
    split_ifs at hslot <;> omega
  cases heffect with
  | added => exact iff_of_true (hkeep fun _ => rfl) trivial
  | idle => exact iff_of_true (hkeep fun _ => rfl) trivial
  | got => exact iff_of_true (hkeep fun _ => rfl) trivial
  | @put c p hhold hprio =>
      have hput := update_slot s.mlq.slot (f.prio p)
      constructor
      · intro h' r hr
        obtain rfl := Option.some.inj (hhold.symm.trans hr)
        have hle := (h' _ hprio).2
        simp only [MlqState.putBack, Function.update_self] at hle
        omega
      · intro hbelow prio hlt
        refine ⟨hnonneg prio hlt, ?_⟩
        have hle := (h prio hlt).2
        have hroom := hbelow p hhold
        by_cases hk : prio = f.prio p
        · subst hk
          simp only [MlqState.putBack, Function.update_self]
          omega
        · simpa only [MlqState.putBack, Function.update_of_ne hk] using hle
  | finished => exact iff_of_true (hkeep fun _ => rfl) trivial

omit [DecidableEq C] [DecidableEq P] in
/-- All slots are in range at the beginning. -/
theorem slotsInRange_boot : SlotsInRange (boot : Dispatch C P) := by
  intro prio hprio
  simp only [boot, MlqState.initScheduler]
  omega

/-- The counters are in their range in every state, as long as no process is put back to
a level whose counter is at its maximum; and a step that does this leaves the range. -/
theorem slots_in_range {es : List (Event C P)}
    (hrun : Lts.Run (Called f (PutsBelow f)) boot es s) :
    SlotsInRange s ∧
      ∀ a s', step f s a = some s' → (SlotsInRange s' ↔ PutsBelow f s a) := by
  have hrange : SlotsInRange s := hrun.invariant slotsInRange_boot fun _ _ _ h hcall =>
    (slotsInRange_step_iff h (effect_of_called hcall)).mpr hcall.1
  refine ⟨hrange, ?_⟩
  intro a s' hstep
  exact slotsInRange_step_iff hrange (effect_of_step hstep)

instance (s : Dispatch C P) (a : DispatchAct C P) : Decidable (PutsBelow f s a) :=
  match a with
  | .addProc _ => instDecidableTrue
  | .putProc c => Option.decidableForallMem
      (p := fun p => s.mlq.slot (f.prio p) < (maxPrio : Int) - f.prio p) (s.hold c)
  | .getProc _ => instDecidableTrue
  | .finish _ => instDecidableTrue

/-- A process is dispatched, put back and dispatched again. -/
theorem slots_in_range_one_cpu :
    ∃ (es : List (Event (Fin 1) (Fin 1))) (s : Dispatch (Fin 1) (Fin 1)),
      Lts.Run (Called ⟨fun _ => 0, fun _ => 139⟩ (PutsBelow ⟨fun _ => 0, fun _ => 139⟩))
        boot es s ∧ s.mlq.slot 139 = 0 ∧ SlotsInRange s := by
  obtain ⟨es, s, hrun, hobs⟩ := Lts.record_observe
    (fun (s : Dispatch (Fin 1) (Fin 1)) a _ => PutsBelow ⟨fun _ => 0, fun _ => 139⟩ s a)
    (call ⟨fun _ => 0, fun _ => 139⟩) boot
    [.addProc 0, .getProc 0, .putProc 0, .getProc 0]
    (fun _ s => s.mlq.slot 139) (v := 0) (by decide +kernel)
  exact ⟨es, s, hrun, hobs, (slots_in_range hrun).1⟩

/-- The first CPU holds the only process when the second one finds nothing ready and
resets the slots; the process is put back, and the counter of its level is 2. -/
theorem not_slots_in_range :
    ¬ ∀ (f : PcbFields (Fin 1)) (es : List (Event (Fin 2) (Fin 1)))
      (s : Dispatch (Fin 2) (Fin 1)), Lts.Run (Called f fun _ _ => True) boot es s →
        SlotsInRange s := by
  intro hclaim
  obtain ⟨es, s, hrun, hobs⟩ := Lts.record_observe
    (fun (_ : Dispatch (Fin 2) (Fin 1)) _ _ => True) (call ⟨fun _ => 0, fun _ => 139⟩) boot
    [.addProc 0, .getProc 0, .getProc 1, .putProc 0]
    (fun _ s => s.mlq.slot 139) (v := 2) (by decide +kernel)
  have hle := (hclaim _ es s hrun 139 (by decide)).2
  rw [hobs] at hle
  exact absurd hle (by decide)

end Dispatch
end Sched
end Hdh
