import Hdh.Os.Invariant

/-!
# The simulation ends with all work done

A CPU leaves its loop when an earlier `get_proc` answered NULL and `done` is set
now.  The two reads are separate steps, and a process may be added between them.
The loader then cannot get to `done = 1` before the CPU has read `done`: it calls
`next_slot` after each `add_proc`, and the slot does not end while a CPU is at its
recheck.

Main results:

- Theorem `slotOpen_step`: the slot in which the loader has added a process stays
  open while some CPU is at its recheck.
- Theorem `Watched.step`: a ready process is always watched by a CPU that will
  ask for it.
- Theorem `nothing_left_behind`: when every CPU has stopped, every process has
  been added and has executed its whole program.
-/

namespace Hdh
namespace Os

open Sched

variable {n : Nat} {cfg : Config} {s s' : State n}

/-- The CPU holds no process and will not ask for one, unless it finds `done`
clear at its recheck. -/
def Quits (s : State n) (c : Fin n) : Prop :=
  s.cpu c = .detach ∨ s.cpu c = .stopped ∨
    s.cpu c = .recheck ∧ s.sched.hold c = none

/-- The loader has added a process in the current slot. -/
def SlotOpen (s : State n) : Prop :=
  (s.ld = .enterAdd ∨ s.ld = .inSlotAdd) ∧
    s.timer.returned none = s.timer.time

/-- The joint invariant of the loader, the scheduler and the CPUs. -/
structure Watched (s : State n) : Prop where
  ready : s.sched.mlq.ready ≠ [] →
    (∃ c, ¬ Quits s c) ∨ SlotOpen s ∧ ∃ c, s.cpu c = .recheck
  seen : ∀ c, s.cpu c = .recheck → s.sched.hold c = none →
    s.seen c = s.i ∨ SlotOpen s

/-- Nothing is ready at the beginning. -/
theorem watched_boot : Watched (boot : State n) := by
  constructor <;> simp [boot, Dispatch.boot]

/-- The slot does not end while a CPU is at its recheck. -/
theorem slotOpen_step (hT : Timer.LockStep (devList n) s.timer)
    (hL : Linked cfg s) (hopen : SlotOpen s) {c : Fin n}
    (hc : s.cpu c = .recheck) {a : Act n} (hstep : Step cfg s a s') :
    SlotOpen s' := by
  obtain ⟨hld, hret⟩ := hopen
  have hwork : s.timer.dev (some c) = .working := by
    have hagrees := hL.cpu c
    rwa [hc] at hagrees
  have hslot : ∀ {b : Timer.Act (Device n)} {t : Timer.State (Device n)},
      Timer.step (devList n) s.timer b = some t →
      t.returned none = t.time ∧ (b = .check none → t.dev none = .asleep) :=
    fun hb => Timer.slot_open hT (mem_devList none) (mem_devList (some c)) hwork hret hb
  constructor
  · cases osStep_of_step hstep with
    | cpu hcpu =>
        rw [hcpu.frame.ld]
        exact hld
    | timer => exact hld
    | ld hldStep =>
        cases hldStep with
        | enterAdd => exact Or.inr rfl
        | nextSlotAdd _ ht =>
            have hdev := (hslot ht).2 rfl
            rw [hdev]
            exact Or.inr rfl
        | add hat => simp [hat] at hld
        | enterWait hat => simp [hat] at hld
        | nextSlotWait hat => simp [hat] at hld
        | detach hat => simp [hat] at hld
        | setDone hat => simp [hat] at hld
        | load hat => simp [hat] at hld
        | loaded hat => simp [hat] at hld
        | early hat => simp [hat] at hld
        | due hat => simp [hat] at hld
  · rcases timer_step hstep with hsame | ⟨b, hb⟩
    · rw [hsame]
      exact hret
    · exact (hslot hb).1

/-- A CPU comes to its recheck without a process only when none is ready. -/
theorem CpuStep.recheck {c : Fin n} (h : CpuStep cfg s c s')
    (hc : s'.cpu c = .recheck) (hhold : s'.sched.hold c = none) :
    s'.sched.mlq.ready = [] ∧ s'.seen c = s'.i := by
  have hget : ∀ {d : Dispatch (Fin n) Nat},
      Dispatch.step cfg.fields s.sched (.getProc c) = some d →
      d.hold c = none → d.mlq.ready = [] := by
    intro d hd hnone
    cases Dispatch.moves_of_step hd with
    | idle _ _ hnil => exact hnil
    | got _ _ hhold => simp [hhold] at hnone
  cases h with
  | get _ _ hd => exact ⟨hget hd hhold, Function.update_self _ _ _⟩
  | getIdle _ hd => exact ⟨hget hd hhold, Function.update_self _ _ _⟩
  | keep _ hheld =>
      rw [State.goCpu, hheld] at hhold
      cases hhold
  | nextSlot =>
      simp only [State.goCpu, Function.update_self] at hc
      split_ifs at hc
  | _ => simp [State.goCpu] at hc

/-- A CPU begins to quit only when no process is ready, and goes on quitting only
when `done` is set. -/
theorem CpuStep.quits {c : Fin n} (h : CpuStep cfg s c s') (hL : Linked cfg s)
    (hq : Quits s' c) :
    s'.sched.mlq.ready = [] ∨
      Quits s c ∧ s'.sched = s.sched ∧ s.done = true := by
  rcases hq with hq | hq | ⟨hq, hhold⟩
  · cases h with
    | exit hat hhold hdone => exact Or.inr ⟨Or.inr (Or.inr ⟨hat, hhold⟩), rfl, hdone⟩
    | getIdle | nextSlot =>
        simp only [State.goCpu, Function.update_self] at hq
        split_ifs at hq
    | _ => simp [State.goCpu] at hq
  · cases h with
    | detach hat => exact Or.inr ⟨Or.inl hat, rfl, (hL.gone c (Or.inl hat)).2⟩
    | getIdle | nextSlot =>
        simp only [State.goCpu, Function.update_self] at hq
        split_ifs at hq
    | _ => simp [State.goCpu] at hq
  · exact Or.inl (h.recheck hq hhold).1

/-- A loader that has just added a process is not done. -/
theorem SlotOpen.not_done (hL : Linked cfg s) (hopen : SlotOpen s) :
    s.done ≠ true := by
  intro hdone
  rcases hL.done_iff.mp hdone with hld | hld <;> simp [SlotOpen, hld] at hopen

/-- A CPU keeps the joint invariant. -/
theorem Watched.cpuStep {c : Fin n} (hW : Watched s)
    (hT : Timer.LockStep (devList n) s.timer) (hL : Linked cfg s)
    (hstep : Step cfg s (.cpu c) s') (h : CpuStep cfg s c s') : Watched s' := by
  have hframe := h.frame
  constructor
  · intro hready
    by_cases hq : Quits s' c
    · rcases h.quits hL hq with hnil | ⟨hq, hsched, hdone⟩
      · exact absurd hnil hready
      · rw [hsched] at hready
        rcases hW.ready hready with ⟨d, hd⟩ | ⟨hopen, -⟩
        · left
          refine ⟨d, ?_⟩
          have hdc : d ≠ c := by
            rintro rfl
            exact hd hq
          unfold Quits at hd ⊢
          rwa [hframe.cpu d hdc, hsched]
        · exact absurd hdone (hopen.not_done hL)
    · exact Or.inl ⟨c, hq⟩
  · intro d hd hhold
    by_cases hdc : d = c
    · subst hdc
      exact Or.inl (h.recheck hd hhold).2
    · rw [hframe.cpu d hdc] at hd
      rw [hframe.hold d hdc] at hhold
      rw [hframe.seen d hdc, hframe.i]
      rcases hW.seen d hd hhold with hseen | hopen
      · exact Or.inl hseen
      · exact Or.inr (slotOpen_step hT hL hopen hd hstep)

/-- So does the loader. -/
theorem Watched.ldStep (hn : 0 < n) (hW : Watched s)
    (hT : Timer.LockStep (devList n) s.timer) (hL : Linked cfg s)
    (hstep : Step cfg s .ld s') (h : LdStep cfg s s') : Watched s' := by
  have hframe := h.frame
  have hquits : ∀ c, Quits s' c ↔ Quits s c := by
    intro c
    unfold Quits
    rw [hframe.cpu, hframe.hold]
  have hkeep : s'.sched.mlq.ready = s.sched.mlq.ready → s'.i = s.i → Watched s' := by
    intro hready hi
    constructor
    · rw [hready]
      intro hne
      rcases hW.ready hne with ⟨c, hc⟩ | ⟨hopen, c, hc⟩
      · exact Or.inl ⟨c, fun hq => hc ((hquits c).mp hq)⟩
      · exact Or.inr ⟨slotOpen_step hT hL hopen hc hstep, c, by rw [hframe.cpu, hc]⟩
    · rw [hframe.cpu, hframe.hold, hframe.seen, hi]
      intro c hc hhold
      rcases hW.seen c hc hhold with hseen | hopen
      · exact Or.inl hseen
      · exact Or.inr (slotOpen_step hT hL hopen hc hstep)
  cases h with
  | @add d hat hd =>
      -- the loader works in the current slot, and no CPU has detached
      have hdev : s.timer.dev none = .working := by
        have hagrees := hL.ld
        rwa [hat] at hagrees
      have hret := ((hT.deviceOk none (mem_devList none)).working hdev).2
      have hopen : SlotOpen ({ s with sched := d, i := s.i + 1 }.goLd .enterAdd) :=
        ⟨Or.inl rfl, hret⟩
      have hnotdone : s.done ≠ true := by
        intro hdone
        rcases hL.done_iff.mp hdone with hld | hld <;> simp [hat] at hld
      refine ⟨fun _ => ?_, fun _ _ _ => Or.inr hopen⟩
      by_cases hq : Quits s ⟨0, hn⟩
      · right
        refine ⟨hopen, ⟨0, hn⟩, ?_⟩
        rcases hq with hq | hq | ⟨hq, -⟩
        · exact absurd (hL.gone _ (Or.inl hq)).2 hnotdone
        · exact absurd (hL.gone _ (Or.inr hq)).2 hnotdone
        · exact hq
      · exact Or.inl ⟨⟨0, hn⟩, fun hq' => hq ((hquits _).mp hq')⟩
  | _ => exact hkeep rfl rfl

/-- Every step keeps the joint invariant. -/
theorem Watched.step (hn : 0 < n) (hW : Watched s)
    (hT : Timer.LockStep (devList n) s.timer) (hL : Linked cfg s) {a : Act n}
    (hstep : Step cfg s a s') : Watched s' := by
  have hopen : SlotOpen s → ∀ c, s.cpu c = .recheck → SlotOpen s' :=
    fun hopen c hc => slotOpen_step hT hL hopen hc hstep
  cases osStep_of_step hstep with
  | cpu hcpu => exact hW.cpuStep hT hL hstep hcpu
  | ld hld => exact hW.ldStep hn hT hL hstep hld
  | timer =>
      constructor
      · intro hne
        rcases hW.ready hne with hlive | ⟨hop, c, hc⟩
        · exact Or.inl hlive
        · exact Or.inr ⟨hopen hop c hc, c, hc⟩
      · intro c hc hhold
        rcases hW.seen c hc hhold with hseen | hop
        · exact Or.inl hseen
        · exact Or.inr (hopen hop c hc)

/-- It holds in every reachable state. -/
theorem watched_of_run (hn : 0 < n) {es : List (Act n)}
    (h : Lts.Run (Step cfg) boot es s) : Watched s := by
  apply h.invariant_of
    (J := fun t => Timer.LockStep (devList n) t.timer ∧ Linked cfg t)
  · intro es t hrun
    exact ⟨timer_of_run hrun, linked_of_run hrun⟩
  · exact watched_boot
  · rintro t a u ⟨hT, hL⟩ hW hstep
    exact hW.step hn hT hL hstep

/-- When every CPU has stopped, the loader has added every process and each
process has executed all its instructions.  In every reachable state, a CPU that
holds no process at its recheck and finds `done` set got its NULL after the last
`add_proc`, and if a process is ready then another CPU is still going to ask for
one. -/
theorem nothing_left_behind (hn : 0 < n)
    (hnum : cfg.numProcesses ≤ maxQueueSize) {es : List (Act n)}
    (h : Lts.Run (Step cfg) boot es s) :
    ((∀ c, s.cpu c = .stopped) →
      s.i = cfg.numProcesses ∧ ∀ p < cfg.numProcesses, s.pc p = cfg.codeSize p) ∧
    (∀ c, s.cpu c = .recheck → s.sched.hold c = none → s.done = true →
      s.seen c = cfg.numProcesses ∧
        (s.sched.mlq.ready ≠ [] → ∃ d, d ≠ c ∧ s.cpu d ≠ .detach ∧
          s.cpu d ≠ .stopped ∧
          (s.cpu d = .recheck → s.sched.hold d ≠ none))) := by
  have hL := linked_of_run h
  have hP := placed_of_run hnum h
  have hW := watched_of_run hn h
  have hadded : s.done = true → s.i = cfg.numProcesses := by
    intro hdone
    have hcounts := hL.counts
    rcases hL.done_iff.mp hdone with hld | hld
    · rwa [hld] at hcounts
    · rwa [hld] at hcounts
  constructor
  · intro hstopped
    have hdone := (hL.gone ⟨0, hn⟩ (Or.inr (hstopped _))).2
    refine ⟨hadded hdone, ?_⟩
    intro p hp
    rcases hP.placed p (by rwa [hadded hdone]) with hready | ⟨c, hc⟩ | hfin
    · -- a ready process would be watched by a CPU that has not stopped
      rcases hW.ready (List.ne_nil_of_mem hready) with ⟨c, hc⟩ | ⟨-, c, hc⟩
      · exact absurd (Or.inr (Or.inl (hstopped c))) hc
      · rw [hstopped c] at hc
        cases hc
    · rw [(hL.gone c (Or.inr (hstopped c))).1] at hc
      cases hc
    · exact hfin
  · intro c hc hhold hdone
    constructor
    · rcases hW.seen c hc hhold with hseen | hopen
      · rw [hseen, hadded hdone]
      · exact absurd hdone (hopen.not_done hL)
    · intro hne
      rcases hW.ready hne with ⟨d, hd⟩ | ⟨hopen, -⟩
      · refine ⟨d, ?_, fun hat => hd (Or.inl hat), fun hat => hd (Or.inr (Or.inl hat)),
          fun hat hnone => hd (Or.inr (Or.inr ⟨hat, hnone⟩))⟩
        rintro rfl
        exact hd (Or.inr (Or.inr ⟨hc, hhold⟩))
      · exact absurd hdone (hopen.not_done hL)

/-- One CPU and one process of one instruction, up to the end. -/
theorem nothing_left_behind_one_cpu :
    ∃ s : State 1,
      Lts.exec (step ⟨2, 1, fun _ => 0, fun _ => 0, fun _ => 0, fun _ => 1⟩) boot
        [.ld, .ld, .ld, .ld, .ld, .cpu 0, .cpu 0, .cpu 0, .cpu 0, .cpu 0, .cpu 0,
          .tick, .tick, .tick, .tick, .tick, .ld, .ld, .ld, .ld, .tick,
          .cpu 0, .cpu 0, .cpu 0, .cpu 0, .cpu 0] = some s ∧
      (∀ c, s.cpu c = .stopped) ∧ s.i = 1 ∧ ∀ p < 1, s.pc p = 1 := by
  have hend : (Lts.exec (step ⟨2, 1, fun _ => 0, fun _ => 0, fun _ => 0, fun _ => 1⟩)
      (boot : State 1)
        [.ld, .ld, .ld, .ld, .ld, .cpu 0, .cpu 0, .cpu 0, .cpu 0, .cpu 0, .cpu 0,
          .tick, .tick, .tick, .tick, .tick, .ld, .ld, .ld, .ld, .tick,
          .cpu 0, .cpu 0, .cpu 0, .cpu 0, .cpu 0]).any
        (fun s => decide (∀ c, s.cpu c = .stopped)) = true := by
    decide +kernel
  obtain ⟨s, hs, hstopped⟩ := (Option.any_eq_true _ _).mp hend
  have hall := of_decide_eq_true hstopped
  exact ⟨s, hs, hall,
    (nothing_left_behind Nat.one_pos (by decide) (Lts.exec_run hs)).1 hall⟩

end Os
end Hdh
