import Hdh.Library.Runs
import Hdh.Sched.Mlq
import Mathlib.Data.List.Nodup

/-!
# CPUs that share the scheduler

The scheduler together with the CPUs that call it.  A CPU holds a process from
the `get_proc` that returned it up to its next `put_proc`, or until it frees the
finished process; each `queue_lock` section is one step, and the steps of the
loader and of the CPUs interleave freely.  `alive` records which PCBs have been
allocated and not yet freed, so that a new PCB is one that is not alive: its
address may be that of a PCB freed earlier.

Main results:

- Theorem `moves_of_step`: what a step can do to the processes.
- Theorem `Exclusive.step`: the exclusion invariant is kept by every step.
- Theorem `scheduled_once`: in every reachable state a process is ready at most
  once, held by at most one CPU, and never both.
-/

namespace Hdh
namespace Sched

variable {C P : Type} [DecidableEq C] [DecidableEq P]

/-- The scheduler, the process each CPU holds, and the PCBs in existence. -/
structure Dispatch (C P : Type) where
  mlq : MlqState P
  hold : C → Option P
  alive : P → Bool

/-- The atomic steps of the loader and of the CPUs on the scheduler. -/
inductive DispatchAct (C P : Type)
  | addProc (p : P)
  | getProc (c : C)
  | putProc (c : C)
  | finish (c : C)
deriving DecidableEq

namespace Dispatch

/-- After `init_scheduler`, with no process loaded. -/
def boot : Dispatch C P where
  mlq := MlqState.initScheduler
  hold := fun _ => none
  alive := fun _ => false

variable (f : PcbFields P)

/-- One step; `none` when the step is not possible. -/
def step (s : Dispatch C P) : DispatchAct C P → Option (Dispatch C P)
  | .addProc p =>
      if s.alive p then none
      else (MlqState.addMlqProc f s.mlq p).map fun m =>
        { s with mlq := m, alive := Function.update s.alive p true }
  | .getProc c =>
      match s.hold c with
      | some _ => none
      | none =>
          let got := MlqState.getMlqProc f s.mlq
          some { s with mlq := got.2, hold := Function.update s.hold c got.1 }
  | .putProc c =>
      match s.hold c with
      | none => none
      | some p => (MlqState.putMlqProc f s.mlq p).map fun m =>
          { s with mlq := m, hold := Function.update s.hold c none }
  | .finish c =>
      match s.hold c with
      | none => none
      | some p => some
          { s with
            hold := Function.update s.hold c none
            alive := Function.update s.alive p false }

/-- The exclusion invariant. -/
structure Exclusive (s : Dispatch C P) : Prop where
  ready_nodup : s.mlq.ready.Nodup
  ready_alive : ∀ p ∈ s.mlq.ready, s.alive p = true
  hold_alive : ∀ c p, s.hold c = some p → s.alive p = true
  hold_not_ready : ∀ c p, s.hold c = some p → p ∉ s.mlq.ready
  hold_inj : ∀ c c' p, s.hold c = some p → s.hold c' = some p → c = c'

omit [DecidableEq C] [DecidableEq P] in
theorem exclusive_boot : Exclusive (boot : Dispatch C P) := by
  constructor <;> simp [boot]

/-! ## What a step can do -/

variable {f} {s s' : Dispatch C P}

/-- Everything that a step can do to the processes, branch by branch. -/
inductive Moves (s s' : Dispatch C P) : DispatchAct C P → Prop
  | added {p : P} : s.alive p = false → s'.mlq.ready.Perm (p :: s.mlq.ready) →
      s'.hold = s.hold → s'.alive = Function.update s.alive p true →
      Moves s s' (.addProc p)
  | dropped {p : P} : s.alive p = false → s'.mlq.ready = s.mlq.ready →
      maxQueueSize ≤ s.mlq.ready.length → s'.hold = s.hold →
      s'.alive = Function.update s.alive p true → Moves s s' (.addProc p)
  | idle {c : C} : s.hold c = none → s.mlq.ready = [] → s'.mlq.ready = [] →
      s'.hold = s.hold → s'.alive = s.alive → Moves s s' (.getProc c)
  | got {c : C} {p : P} : s.hold c = none → s.mlq.ready.Perm (p :: s'.mlq.ready) →
      s'.hold = Function.update s.hold c (some p) → s'.alive = s.alive →
      Moves s s' (.getProc c)
  | returned {c : C} {p : P} : s.hold c = some p →
      s'.mlq.ready.Perm (p :: s.mlq.ready) →
      s'.hold = Function.update s.hold c none → s'.alive = s.alive →
      Moves s s' (.putProc c)
  | lost {c : C} {p : P} : s.hold c = some p → s'.mlq.ready = s.mlq.ready →
      maxQueueSize ≤ s.mlq.ready.length →
      s'.hold = Function.update s.hold c none → s'.alive = s.alive →
      Moves s s' (.putProc c)
  | finished {c : C} {p : P} : s.hold c = some p → s'.mlq.ready = s.mlq.ready →
      s'.hold = Function.update s.hold c none →
      s'.alive = Function.update s.alive p false → Moves s s' (.finish c)

theorem moves_of_step {a : DispatchAct C P} (hstep : step f s a = some s') :
    Moves s s' a := by
  cases a with
  | addProc p =>
      simp only [step] at hstep
      split_ifs at hstep with halive
      have hnew := Bool.eq_false_iff.mpr halive
      obtain ⟨m, hm, rfl⟩ := Option.map_eq_some_iff.mp hstep
      obtain ⟨hprio, hready | ⟨hready, hfull⟩⟩ := MlqState.ready_addMlqProc f hm
      · exact .added hnew hready rfl rfl
      · exact .dropped hnew hready (hfull ▸ MlqState.size_le_ready s.mlq hprio) rfl rfl
  | getProc c =>
      simp only [step] at hstep
      split at hstep
      · cases hstep
      · rename_i hidle
        cases hstep
        rcases MlqState.ready_getMlqProc f s.mlq with
          ⟨hnil, hnone, hnil'⟩ | ⟨p, hsome, hready⟩
        · refine .idle hidle hnil hnil' ?_ rfl
          rw [hnone, ← hidle]
          exact Function.update_eq_self c s.hold
        · exact .got hidle hready (by rw [hsome]) rfl
  | putProc c =>
      simp only [step] at hstep
      split at hstep
      · cases hstep
      · rename_i p hheld
        obtain ⟨m, hm, rfl⟩ := Option.map_eq_some_iff.mp hstep
        obtain ⟨hprio, hready | ⟨hready, hfull⟩⟩ := MlqState.ready_putMlqProc f hm
        · exact .returned hheld hready rfl rfl
        · exact .lost hheld hready (hfull ▸ MlqState.size_le_ready s.mlq hprio) rfl rfl
  | finish c =>
      simp only [step] at hstep
      split at hstep
      · cases hstep
      · rename_i p hheld
        cases hstep
        exact .finished hheld rfl rfl rfl

omit [DecidableEq P] in
/-- A process that is held after a CPU has let go of its own is held by another one. -/
theorem hold_of_release {g : C → Option P} {c d : C} {q : P}
    (hd : Function.update g c none d = some q) : d ≠ c ∧ g d = some q := by
  by_cases hdc : d = c
  · rw [hdc, Function.update_self] at hd
    cases hd
  · rw [Function.update_of_ne hdc] at hd
    exact ⟨hdc, hd⟩

omit [DecidableEq P] in
/-- A process that is held after a CPU has got one is this one or was held before. -/
theorem hold_of_take {g : C → Option P} {c d : C} {p q : P}
    (hd : Function.update g c (some p) d = some q) : d = c ∧ q = p ∨ g d = some q := by
  by_cases hdc : d = c
  · rw [hdc, Function.update_self] at hd
    exact Or.inl ⟨hdc, (Option.some.inj hd).symm⟩
  · rw [Function.update_of_ne hdc] at hd
    exact Or.inr hd

omit [DecidableEq P] in
/-- A process that is held stays so when a CPU changes that does not hold it. -/
theorem held_update {g : C → Option P} {c : C} {p : P} {x : Option P}
    (hne : g c ≠ some p) (hheld : ∃ d, g d = some p) :
    ∃ d, Function.update g c x d = some p := by
  obtain ⟨d, hd⟩ := hheld
  have hdc : d ≠ c := by
    rintro rfl
    exact hne hd
  exact ⟨d, (Function.update_of_ne hdc _ _).trans hd⟩

/-- A CPU leaves alone what the others hold. -/
theorem Moves.hold_other {a : DispatchAct C P} (h : Moves s s' a) {c : C}
    (ha : a = .getProc c ∨ a = .putProc c ∨ a = .finish c) :
    ∀ d, d ≠ c → s'.hold d = s.hold d := by
  intro d hdc
  cases h with
  | added => simp at ha
  | dropped => simp at ha
  | idle _ _ _ hhold => rw [hhold]
  | got _ _ hhold =>
      obtain rfl : _ = c := by simpa using ha
      rw [hhold, Function.update_of_ne hdc]
  | returned _ _ hhold =>
      obtain rfl : _ = c := by simpa using ha
      rw [hhold, Function.update_of_ne hdc]
  | lost _ _ _ hhold =>
      obtain rfl : _ = c := by simpa using ha
      rw [hhold, Function.update_of_ne hdc]
  | finished _ _ hhold =>
      obtain rfl : _ = c := by simpa using ha
      rw [hhold, Function.update_of_ne hdc]

/-- Only a CPU that holds a process puts one back. -/
theorem hold_of_putProc {c : C} (hstep : step f s (.putProc c) = some s') :
    ∃ p, s.hold c = some p := by
  cases moves_of_step hstep with
  | returned hheld => exact ⟨_, hheld⟩
  | lost hheld => exact ⟨_, hheld⟩

/-! ## What each step keeps -/

omit [DecidableEq C] in
theorem alive_of_update {p q : P} (halive : s'.alive = Function.update s.alive p true)
    (hq : s.alive q = true) : s'.alive q = true := by
  rw [halive]
  by_cases hqp : q = p
  · rw [hqp, Function.update_self]
  · rw [Function.update_of_ne hqp, hq]

omit [DecidableEq C] in
/-- A new PCB becomes ready. -/
theorem Exclusive.added (h : Exclusive s) {p : P} (hnew : s.alive p = false)
    (hready : s'.mlq.ready.Perm (p :: s.mlq.ready)) (hhold : s'.hold = s.hold)
    (halive : s'.alive = Function.update s.alive p true) : Exclusive s' := by
  have hmem : ∀ q, q ∈ s'.mlq.ready ↔ q = p ∨ q ∈ s.mlq.ready := by
    intro q
    rw [hready.mem_iff, List.mem_cons]
  have hnot : p ∉ s.mlq.ready := by
    intro hp
    rw [h.ready_alive p hp] at hnew
    cases hnew
  constructor
  · exact hready.nodup_iff.mpr (List.nodup_cons.mpr ⟨hnot, h.ready_nodup⟩)
  · intro q hq
    rcases (hmem q).mp hq with rfl | hq
    · rw [halive, Function.update_self]
    · exact alive_of_update halive (h.ready_alive q hq)
  · intro c q hc
    rw [hhold] at hc
    exact alive_of_update halive (h.hold_alive c q hc)
  · intro c q hc hq
    rw [hhold] at hc
    rcases (hmem q).mp hq with rfl | hq
    · rw [h.hold_alive c q hc] at hnew
      cases hnew
    · exact h.hold_not_ready c q hc hq
  · rw [hhold]
    exact h.hold_inj

omit [DecidableEq C] in
/-- A new PCB is dropped, since its level is full. -/
theorem Exclusive.dropped (h : Exclusive s) {p : P}
    (hready : s'.mlq.ready = s.mlq.ready) (hhold : s'.hold = s.hold)
    (halive : s'.alive = Function.update s.alive p true) : Exclusive s' := by
  constructor
  · rw [hready]
    exact h.ready_nodup
  · rw [hready]
    exact fun q hq => alive_of_update halive (h.ready_alive q hq)
  · rw [hhold]
    exact fun c q hc => alive_of_update halive (h.hold_alive c q hc)
  · rw [hhold, hready]
    exact h.hold_not_ready
  · rw [hhold]
    exact h.hold_inj

omit [DecidableEq C] [DecidableEq P] in
/-- A CPU finds nothing ready. -/
theorem Exclusive.idle (h : Exclusive s) (hnil : s'.mlq.ready = [])
    (hhold : s'.hold = s.hold) (halive : s'.alive = s.alive) : Exclusive s' := by
  constructor
  · simp [hnil]
  · simp [hnil]
  · rw [hhold, halive]
    exact h.hold_alive
  · simp [hnil]
  · rw [hhold]
    exact h.hold_inj

omit [DecidableEq P] in
/-- A CPU takes up a ready process, which no other CPU holds. -/
theorem Exclusive.got (h : Exclusive s) {c : C} {p : P}
    (hready : s.mlq.ready.Perm (p :: s'.mlq.ready))
    (hhold : s'.hold = Function.update s.hold c (some p)) (halive : s'.alive = s.alive) :
    Exclusive s' := by
  have hmem : ∀ q, q ∈ s.mlq.ready ↔ q = p ∨ q ∈ s'.mlq.ready := by
    intro q
    rw [hready.mem_iff, List.mem_cons]
  have hnodup := hready.nodup_iff.mp h.ready_nodup
  have hp : p ∈ s.mlq.ready := (hmem p).mpr (Or.inl rfl)
  have hother : ∀ d, s.hold d ≠ some p := fun d hd => h.hold_not_ready d p hd hp
  have hheld : ∀ d q, s'.hold d = some q → d = c ∧ q = p ∨ s.hold d = some q := by
    intro d q hd
    rw [hhold] at hd
    exact hold_of_take hd
  constructor
  · exact (List.nodup_cons.mp hnodup).2
  · intro q hq
    rw [halive]
    exact h.ready_alive q ((hmem q).mpr (Or.inr hq))
  · intro d q hd
    rw [halive]
    rcases hheld d q hd with ⟨-, rfl⟩ | hd
    · exact h.ready_alive q hp
    · exact h.hold_alive d q hd
  · intro d q hd hq
    rcases hheld d q hd with ⟨-, rfl⟩ | hd
    · exact (List.nodup_cons.mp hnodup).1 hq
    · exact h.hold_not_ready d q hd ((hmem q).mpr (Or.inr hq))
  · intro d d' q hd hd'
    rcases hheld d q hd with ⟨hdc, hqp⟩ | hold
    · rcases hheld d' q hd' with ⟨hdc', -⟩ | hold'
      · rw [hdc, hdc']
      · exact absurd (hqp ▸ hold') (hother d')
    · rcases hheld d' q hd' with ⟨-, hqp⟩ | hold'
      · exact absurd (hqp ▸ hold) (hother d)
      · exact h.hold_inj d d' q hold hold'

omit [DecidableEq P] in
/-- A CPU puts its process back. -/
theorem Exclusive.returned (h : Exclusive s) {c : C} {p : P} (hheld : s.hold c = some p)
    (hready : s'.mlq.ready.Perm (p :: s.mlq.ready))
    (hhold : s'.hold = Function.update s.hold c none) (halive : s'.alive = s.alive) :
    Exclusive s' := by
  have hmem : ∀ q, q ∈ s'.mlq.ready ↔ q = p ∨ q ∈ s.mlq.ready := by
    intro q
    rw [hready.mem_iff, List.mem_cons]
  constructor
  · exact hready.nodup_iff.mpr
      (List.nodup_cons.mpr ⟨h.hold_not_ready c p hheld, h.ready_nodup⟩)
  · intro q hq
    rw [halive]
    rcases (hmem q).mp hq with rfl | hq
    · exact h.hold_alive c q hheld
    · exact h.ready_alive q hq
  · intro d q hd
    rw [hhold] at hd
    rw [halive]
    exact h.hold_alive d q (hold_of_release hd).2
  · intro d q hd hq
    rw [hhold] at hd
    obtain ⟨hdc, hd⟩ := hold_of_release hd
    rcases (hmem q).mp hq with rfl | hq
    · -- another CPU would hold the process that `c` has just put back
      exact hdc (h.hold_inj d c q hd hheld)
    · exact h.hold_not_ready d q hd hq
  · intro d d' q hd hd'
    rw [hhold] at hd hd'
    exact h.hold_inj d d' q (hold_of_release hd).2 (hold_of_release hd').2

omit [DecidableEq P] in
/-- A CPU lets go of its process, which is not kept. -/
theorem Exclusive.lost (h : Exclusive s) {c : C} (hready : s'.mlq.ready = s.mlq.ready)
    (hhold : s'.hold = Function.update s.hold c none) (halive : s'.alive = s.alive) :
    Exclusive s' := by
  constructor
  · rw [hready]
    exact h.ready_nodup
  · rw [hready, halive]
    exact h.ready_alive
  · intro d q hd
    rw [hhold] at hd
    rw [halive]
    exact h.hold_alive d q (hold_of_release hd).2
  · intro d q hd
    rw [hhold] at hd
    rw [hready]
    exact h.hold_not_ready d q (hold_of_release hd).2
  · intro d d' q hd hd'
    rw [hhold] at hd hd'
    exact h.hold_inj d d' q (hold_of_release hd).2 (hold_of_release hd').2

/-- A CPU frees its process. -/
theorem Exclusive.finished (h : Exclusive s) {c : C} {p : P} (hheld : s.hold c = some p)
    (hready : s'.mlq.ready = s.mlq.ready)
    (hhold : s'.hold = Function.update s.hold c none)
    (halive : s'.alive = Function.update s.alive p false) : Exclusive s' := by
  constructor
  · rw [hready]
    exact h.ready_nodup
  · intro q hq
    rw [hready] at hq
    have hqp : q ≠ p := by
      rintro rfl
      exact h.hold_not_ready c q hheld hq
    rw [halive, Function.update_of_ne hqp]
    exact h.ready_alive q hq
  · intro d q hd
    rw [hhold] at hd
    obtain ⟨hdc, hd⟩ := hold_of_release hd
    have hqp : q ≠ p := by
      rintro rfl
      exact hdc (h.hold_inj d c q hd hheld)
    rw [halive, Function.update_of_ne hqp]
    exact h.hold_alive d q hd
  · intro d q hd
    rw [hhold] at hd
    rw [hready]
    exact h.hold_not_ready d q (hold_of_release hd).2
  · intro d d' q hd hd'
    rw [hhold] at hd hd'
    exact h.hold_inj d d' q (hold_of_release hd).2 (hold_of_release hd').2

/-- Every step keeps the exclusion invariant. -/
theorem Exclusive.step (h : Exclusive s) {a : DispatchAct C P}
    (hstep : Dispatch.step f s a = some s') : Exclusive s' := by
  cases moves_of_step hstep with
  | added hnew hready hhold halive => exact h.added hnew hready hhold halive
  | dropped _ hready _ hhold halive => exact h.dropped hready hhold halive
  | idle _ _ hnil hhold halive => exact h.idle hnil hhold halive
  | got _ hready hhold halive => exact h.got hready hhold halive
  | returned hheld hready hhold halive => exact h.returned hheld hready hhold halive
  | lost _ hready _ hhold halive => exact h.lost hready hhold halive
  | finished hheld hready hhold halive => exact h.finished hheld hready hhold halive

/-! ## Every reachable state -/

variable (f) in
/-- One step of the scheduler and the CPUs as a relation. -/
def Step (s : Dispatch C P) (a : DispatchAct C P) (s' : Dispatch C P) : Prop :=
  step f s a = some s'

theorem exclusive_of_run {es : List (DispatchAct C P)}
    (h : Lts.Run (Step f) boot es s) : Exclusive s :=
  h.invariant exclusive_boot fun _ _ _ hI hstep => hI.step hstep

/-- No process is ever scheduled twice: in every reachable state it occurs at
most once in all ready queues taken together, at most one CPU holds it, and no
CPU holds a process that is ready. -/
theorem scheduled_once {es : List (DispatchAct C P)}
    (h : Lts.Run (Step f) boot es s) :
    (∀ p, s.mlq.ready.count p ≤ 1) ∧
      (∀ p c c', s.hold c = some p → s.hold c' = some p → c = c') ∧
      ∀ p c, s.hold c = some p → p ∉ s.mlq.ready := by
  have hI := exclusive_of_run h
  refine ⟨?_, ?_, ?_⟩
  · intro p
    exact List.nodup_iff_count_le_one.1 hI.ready_nodup p
  · intro p c c' hc hc'
    exact hI.hold_inj c c' p hc hc'
  · intro p c hc
    exact hI.hold_not_ready c p hc

/-- Two CPUs that share two processes of one level. -/
theorem scheduled_once_two_cpus :
    ∃ s : Dispatch (Fin 2) (Fin 2),
      Lts.exec (step ⟨fun _ => 5, fun _ => 3⟩) boot
        [.addProc 0, .addProc 1, .getProc 0, .getProc 1, .putProc 0,
          .finish 1, .getProc 1] = some s ∧
      (∀ p, s.mlq.ready.count p ≤ 1) ∧
      (∀ p c c', s.hold c = some p → s.hold c' = some p → c = c') ∧
      ∀ p c, s.hold c = some p → p ∉ s.mlq.ready := by
  have hdef : (Lts.exec (step ⟨fun _ => 5, fun _ => 3⟩)
      (boot : Dispatch (Fin 2) (Fin 2))
        [.addProc 0, .addProc 1, .getProc 0, .getProc 1, .putProc 0,
          .finish 1, .getProc 1]).isSome = true := by
    decide +kernel
  obtain ⟨s, hs⟩ := Option.isSome_iff_exists.mp hdef
  exact ⟨s, hs, scheduled_once (Lts.exec_run hs)⟩

end Dispatch
end Sched
end Hdh
