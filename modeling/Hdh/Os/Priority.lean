import Hdh.Os.Demand
import Hdh.Sched.Priority

/-!
# The order of the levels

The slots of `sched.c` are meant to let a level yield to the levels behind it.  Since
`put_mlq_proc` returns the slot that `get_mlq_proc` has taken, a level runs out of slots
only when more of its processes are on CPUs or freed than it has slots: as long as no level
has more than `MAX_PRIO - prio` processes, the levels are strict priorities.

Main results:

- Theorem `Ranked.step`: the slots of each level, whatever the threads do.
- Theorem `first_of_get`: a CPU takes a process of the first level that has one.
- Theorem `strict_priority`: a process is dispatched only when all processes of the levels
  before its own are on other CPUs or done.
-/

namespace Hdh
namespace Os

open Sched

variable {n : Nat} {cfg : Config} {s s' : State n}

/-! ## The processes of a level -/

/-- The number of processes of a level, among the first `i`. -/
def Config.levelCount (cfg : Config) (prio i : Nat) : Nat :=
  (List.range i).countP fun p => decide (cfg.prio p = prio)

/-- No level has more processes than slots. -/
def Config.Uncrowded (cfg : Config) : Prop :=
  ∀ prio < maxPrio, cfg.levelCount prio cfg.numProcesses + prio ≤ maxPrio

/-- One more process counts on its own level. -/
theorem levelCount_succ (cfg : Config) (prio i : Nat) :
    cfg.levelCount prio (i + 1) =
      cfg.levelCount prio i + if cfg.prio i = prio then 1 else 0 := by
  simp [Config.levelCount, List.range_succ, List.countP_append, List.countP_singleton]

/-- More processes on a level do not become fewer. -/
theorem levelCount_mono (cfg : Config) (prio : Nat) {i j : Nat} (hij : i ≤ j) :
    cfg.levelCount prio i ≤ cfg.levelCount prio j :=
  List.Sublist.countP_le (List.range_sublist.mpr hij)

/-! ## The slots of the levels -/

/-- The processes are in the queues of their levels, and each level lacks at most as many
slots as it has processes elsewhere. -/
structure Ranked (cfg : Config) (s : State n) : Prop where
  own : Dispatch.OwnLevels cfg.fields s.sched
  stock : ∀ prio < maxPrio, Dispatch.Stocked s.sched prio (cfg.levelCount prio s.i)

/-- No level has a process at the beginning. -/
theorem ranked_boot : Ranked cfg (boot : State n) where
  own := Dispatch.ownLevels_boot
  stock := fun prio _ => Dispatch.stocked_boot prio

/-- The queue of a level holds processes of this level that have been added. -/
theorem size_le_levelCount (hS : Sound cfg s) (hown : Dispatch.OwnLevels cfg.fields s.sched)
    {prio : Nat} (hprio : prio < maxPrio) :
    (s.sched.mlq.mlqReadyQueue prio).size ≤ cfg.levelCount prio s.i := by
  have hsub := s.sched.mlq.sublist_ready hprio
  have hnodup : (s.sched.mlq.mlqReadyQueue prio).toList.Nodup :=
    hsub.nodup hS.sched.ready_nodup
  have hmem : (s.sched.mlq.mlqReadyQueue prio).toList ⊆
      (List.range s.i).filter fun p => decide (cfg.prio p = prio) := by
    intro p hp
    have halive := hS.sched.ready_alive p (hsub.subset hp)
    exact List.mem_filter.mpr ⟨List.mem_range.mpr (hS.callable.alive_lt p halive),
      decide_eq_true (hown prio hprio p hp)⟩
  rw [Config.levelCount, List.countP_eq_length_filter, ← QueueT.length_toList]
  exact (List.subperm_of_subset hnodup hmem).length_le

/-- A step calls the scheduler or leaves it alone, and only the loader adds processes. -/
theorem call_step {a : Act n} (hstep : Step cfg s a s') :
    s'.sched = s.sched ∧ s'.i = s.i ∨
      ∃ b, Dispatch.step cfg.fields s.sched b = some s'.sched ∧
        ∀ prio, cfg.levelCount prio s'.i =
          cfg.levelCount prio s.i + Dispatch.joins cfg.fields prio b := by
  cases osStep_of_step hstep with
  | cpu hcpu =>
      have hi := hcpu.frame.i
      cases hcpu with
      | finish _ _ _ hd | getIdle _ hd | get _ _ hd | put _ hd =>
          exact Or.inr ⟨_, hd, fun _ => rfl⟩
      | exec => exact Or.inl ⟨run_sched _, hi⟩
      | _ => exact Or.inl ⟨rfl, rfl⟩
  | ld hld =>
      cases hld with
      | add _ hd => exact Or.inr ⟨_, hd, fun prio => levelCount_succ cfg prio s.i⟩
      | _ => exact Or.inl ⟨rfl, rfl⟩
  | timer => exact Or.inl ⟨rfl, rfl⟩

/-- Every step keeps the levels and the count of their slots. -/
theorem Ranked.step (hS : Sound cfg s) (h : Ranked cfg s) {a : Act n}
    (hstep : Step cfg s a s') : Ranked cfg s' := by
  rcases call_step hstep with ⟨hsched, hi⟩ | ⟨b, hb, hcount⟩
  · constructor
    · rw [hsched]
      exact h.own
    · rw [hsched, hi]
      exact h.stock
  · have heffect := Dispatch.effect_of_step hb
    refine ⟨h.own.step heffect, fun prio hprio => ?_⟩
    rw [hcount]
    exact (h.stock prio hprio).step hprio (size_le_levelCount hS h.own hprio) heffect

/-- They are kept in every reachable state. -/
theorem ranked_of_run {es : List (Act n)} (h : Lts.Run (Step cfg) boot es s) :
    Ranked cfg s :=
  h.invariant_of (fun _ _ hrun => Sound.of_run hrun) ranked_boot
    fun _ _ _ hS hR hstep => hR.step hS hstep

/-! ## The process that is taken -/

/-- A CPU comes to hold a process by a `get_proc`. -/
theorem get_of_hold {a : Act n} (hstep : Step cfg s a s') {c : Fin n} {p : Nat}
    (hidle : s.sched.hold c = none) (hgot : s'.sched.hold c = some p) :
    a = .cpu c ∧ Dispatch.step cfg.fields s.sched (.getProc c) = some s'.sched := by
  by_cases ha : a = .cpu c
  · subst ha
    refine ⟨rfl, ?_⟩
    have hsame : s'.sched ≠ s.sched := by
      intro heq
      rw [heq, hidle] at hgot
      cases hgot
    cases cpuStep_of_cpuRoutine hstep with
    | getIdle _ hd => exact hd
    | get _ _ hd => exact hd
    | finish _ hheld =>
        rw [hheld] at hidle
        cases hidle
    | put _ hd =>
        obtain ⟨⟨q, hheld⟩, -⟩ := hold_of_release (Or.inl rfl) hd
        rw [hheld] at hidle
        cases hidle
    | exec => exact absurd (run_sched _) hsame
    | _ => exact absurd rfl hsame
  · have hhold : s'.sched.hold c = s.sched.hold c :=
      congrArg View.proc (view_other ha hstep)
    rw [hhold, hidle] at hgot
    cases hgot

/-- A CPU takes a process of the first level that has one. -/
theorem first_of_get (hS : Sound cfg s) (hR : Ranked cfg s) (hlevels : cfg.Uncrowded)
    {a : Act n} (hstep : Step cfg s a s') {c : Fin n} {p : Nat}
    (hidle : s.sched.hold c = none) (hgot : s'.sched.hold c = some p) :
    ∀ q ∈ s.sched.mlq.ready, cfg.prio p ≤ cfg.prio q := by
  have hcount : ∀ prio < maxPrio,
      (cfg.levelCount prio s.i : Int) ≤ Dispatch.budget prio := by
    intro prio hprio
    have hroom := hlevels prio hprio
    have hmono := levelCount_mono cfg prio hS.linked.counts.le
    unfold Dispatch.budget
    omega
  exact (Dispatch.got_first hR.own hR.stock hcount (get_of_hold hstep hidle hgot).2 hgot).2.2

/-- The levels are strict priorities: in every run, a CPU takes a process only when every
process of a level before its own that has been added is on another CPU or has executed its
whole program. -/
theorem strict_priority (hnum : cfg.numProcesses ≤ maxQueueSize) (hlevels : cfg.Uncrowded)
    {es : List (Act n)} (hrun : Lts.Run (Step cfg) boot es s) {a : Act n}
    (hstep : Step cfg s a s') {c : Fin n} {p : Nat} (hidle : s.sched.hold c = none)
    (hgot : s'.sched.hold c = some p) :
    ∀ q < s.i, cfg.prio q < cfg.prio p →
      s.pc q = cfg.codeSize q ∨ ∃ d, d ≠ c ∧ s.sched.hold d = some q := by
  intro q hq hbefore
  rcases (placed_of_run hnum hrun).placed q hq with hready | ⟨d, hd⟩ | hdone
  · have hle := first_of_get (Sound.of_run hrun) (ranked_of_run hrun) hlevels hstep hidle
      hgot q hready
    omega
  · refine Or.inr ⟨d, ?_, hd⟩
    rintro rfl
    rw [hidle] at hd
    cases hd
  · exact Or.inl hdone

/-- A time slot of 2, and two processes of one instruction each, the second one of the level
before the first one. -/
def twoLevels : Config where
  timeSlot := 2
  numProcesses := 2
  startTime := fun _ => 0
  prio := fun p => 1 - p
  priority := fun _ => 0
  codeSize := fun _ => 1

/-- A CPU that has found nothing, and then takes the second process. -/
def secondFirst : List (Act 1) :=
  [.cpu 0, .cpu 0, .cpu 0, .ld, .ld, .ld, .ld] ++ List.replicate 6 .tick ++
    [.cpu 0, .ld, .ld, .ld, .ld, .cpu 0, .cpu 0, .cpu 0, .cpu 0, .cpu 0, .ld] ++
    List.replicate 7 .tick ++ [.cpu 0, .cpu 0]

/-- Two processes do not use up the slots of a level. -/
theorem uncrowded_twoLevels : twoLevels.Uncrowded := by
  intro prio hprio
  have hle : twoLevels.levelCount prio 2 ≤ 1 := by
    rcases prio with _ | _ | prio
    · decide
    · decide
    · simp [Config.levelCount, twoLevels, List.range_succ]
  have hnum : twoLevels.numProcesses = 2 := rfl
  rw [hnum]
  omega

/-- The first process is dispatched when the second one has executed its instruction. -/
theorem strict_priority_two_levels :
    ∃ s s' : State 1, Lts.exec (step twoLevels) boot secondFirst = some s ∧
      step twoLevels s (.cpu 0) = some s' ∧ s'.sched.hold 0 = some 0 ∧
      (s.pc 1 = 1 ∨ ∃ d, d ≠ 0 ∧ s.sched.hold d = some 1) := by
  have hend : (Lts.exec (step twoLevels) (boot : State 1) secondFirst).any
      (fun s => decide (s.i = 2 ∧ s.sched.hold 0 = none) &&
        (step twoLevels s (.cpu 0)).any fun s' => decide (s'.sched.hold 0 = some 0)) =
        true := by
    decide +kernel
  obtain ⟨s, hs, hobs⟩ := (Option.any_eq_true _ _).mp hend
  rw [Bool.and_eq_true] at hobs
  obtain ⟨hi, hidle⟩ := of_decide_eq_true hobs.1
  obtain ⟨s', hs', hgot⟩ := (Option.any_eq_true _ _).mp hobs.2
  have hgot := of_decide_eq_true hgot
  exact ⟨s, s', hs, hs', hgot, strict_priority (by decide) uncrowded_twoLevels
    (Lts.exec_run hs) hs' hidle hgot 1 (by rw [hi]; decide) (by decide)⟩

end Os
end Hdh
