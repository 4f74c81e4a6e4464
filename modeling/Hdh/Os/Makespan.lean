import Hdh.Os.Completion
import Hdh.Os.Demand
import Hdh.Os.Idle

/-!
# All programs are executed in time

A slot in which a process is left to execute is never wasted: at its end some CPU holds a
process, on which it has called `run`, or the loader has just added the process.  The
loader has added every process one slot for each of them after the last start time, and
the calls are bounded by the programs.

Main results:

- Theorem `Busy.step`: a process that is ready will be asked for in its slot.
- Theorem `Loading.step`: how far the loader is at each time.
- Theorem `Paid.step`: every slot is paid for by a call or by the loader.
- Theorem `done_in_time`: the number of slots that the programs take.
-/

namespace Hdh
namespace Os

open Sched

variable {n : Nat} {cfg : Config} {s s' : State n}

/-! ## No slot is wasted -/

/-- The CPU will ask for a process in this slot, or has one on which it calls `run` in it. -/
def Active (s : State n) (c : Fin n) : Prop :=
  match s.cpu c with
  | .recheck => s.sched.hold c ≠ none
  | .enter => s.sched.hold c ≠ none
  | .inSlot => s.sched.hold c ≠ none ∨ s.timer.behind (some c) = true
  | .detach => False
  | .stopped => False
  | _ => True

/-- A process that is ready will be asked for, or has just been added. -/
def Busy (s : State n) : Prop :=
  s.sched.mlq.ready ≠ [] → (∃ c, Active s c) ∨ SlotOpen s

/-- Nothing is ready at the beginning. -/
theorem busy_boot : Busy (boot : State n) := by
  intro hready
  exact absurd rfl hready

/-- Only the timer thread advances `_time`. -/
theorem tick_of_time {a : Act n} (hstep : Step cfg s a s')
    (htime : s'.timer.time ≠ s.timer.time) :
    ∃ t, Timer.Step (devList n) s.timer .tick t ∧ s' = { s with timer := t } := by
  have hother : ∀ {b : Timer.Act (Device n)} {t : Timer.State (Device n)},
      Timer.step (devList n) s.timer b = some t → b ≠ .tick → t.time = s.timer.time :=
    fun ht hne => (Timer.time_step ht).resolve_right fun htick => hne htick.1
  cases osStep_of_step hstep with
  | cpu hcpu =>
      cases hcpu with
      | enter _ ht | nextSlot _ ht | detach _ ht =>
          exact absurd (hother ht (by simp)) htime
      | exec => exact absurd (by simp [State.goCpu]) htime
      | _ => exact absurd rfl htime
  | ld hld =>
      cases hld with
      | enterWait _ ht | nextSlotWait _ ht | enterAdd _ ht | nextSlotAdd _ ht | detach _ ht =>
          exact absurd (hother ht (by simp)) htime
      | _ => exact absurd rfl htime
  | @timer _ b t _ ht =>
      rcases Timer.time_step ht with hsame | ⟨rfl, -⟩
      · exact absurd hsame htime
      · exact ⟨t, ht, rfl⟩

/-- Where a CPU is when `_time` advances. -/
theorem cpu_of_advance (hS : Sound cfg s) {t : Timer.State (Device n)}
    (ht : Timer.Step (devList n) s.timer .tick t) (htime : t.time ≠ s.timer.time)
    (c : Fin n) : s.cpu c = .stopped ∨ s.cpu c = .inSlot ∧
      s.timer.behind (some c) = false ∧ t.behind (some c) = true := by
  have hagrees := hS.linked.cpu c
  obtain ⟨-, hdet | ⟨hin, hbehind⟩⟩ :=
    Timer.advanced_of_time hS.timer ht htime (mem_devList (some c))
  · rw [hdet] at hagrees
    left
    cases hat : s.cpu c <;> simp_all [CpuAt.Agrees]
  · right
    refine ⟨?_, hbehind⟩
    cases hat : s.cpu c <;> rcases hin with hin | hin <;> simp_all [CpuAt.Agrees]

/-- In the next slot every CPU that has not stopped will ask again. -/
theorem active_of_advance (hS : Sound cfg s) {t : Timer.State (Device n)}
    (ht : Timer.Step (devList n) s.timer .tick t) (htime : t.time ≠ s.timer.time)
    {c : Fin n} (hc : s.cpu c ≠ .stopped) : Active { s with timer := t } c := by
  obtain ⟨hat, -, hbehind⟩ := (cpu_of_advance hS ht htime c).resolve_left hc
  simp [Active, hat, hbehind]

/-- A CPU loses its process, or does not ask for one, only when none is ready. -/
theorem active_cpuStep (hS : Sound cfg s) {c : Fin n} (hstep : CpuStep cfg s c s') :
    s'.sched.mlq.ready = [] ∨ Active s' c ∨ ¬ Active s c ∧ s'.sched = s.sched := by
  have hget : ∀ {d : Dispatch (Fin n) Nat},
      Dispatch.step cfg.fields s.sched (.getProc c) = some d →
      d.mlq.ready = [] ∨ d.hold c ≠ none := by
    intro d hd
    cases Dispatch.moves_of_step hd with
    | idle _ _ hnil => exact Or.inl hnil
    | got _ _ hhold => exact Or.inr (by simp [hhold])
  cases hstep with
  | getIdle _ hd =>
      rcases hget hd with hnil | hgot
      · exact Or.inl hnil
      · exact Or.inr (Or.inl (by simp [Active, State.goCpu, hgot]))
  | get _ _ hd =>
      rcases hget hd with hnil | hgot
      · exact Or.inl hnil
      · exact Or.inr (Or.inl (by simpa [Active, State.goCpu] using hgot))
  | keep _ hheld => exact Or.inr (Or.inl (by simp [Active, State.goCpu, hheld]))
  | exec _ _ hheld => exact Or.inr (Or.inl (by simp [Active, State.goCpu, hheld]))
  | exit hat hnone | skip hat hnone =>
      exact Or.inr (Or.inr ⟨by simp [Active, hat, hnone], rfl⟩)
  | detach hat => exact Or.inr (Or.inr ⟨by simp [Active, hat], rfl⟩)
  | enter hat =>
      by_cases hnone : s.sched.hold c = none
      · exact Or.inr (Or.inr ⟨by simp [Active, hat, hnone], rfl⟩)
      · exact Or.inr (Or.inl (by simp [Active, State.goCpu, hnone]))
  | nextSlot hat ht =>
      rcases Timer.behind_check hS.timer ht with ⟨hwork, -⟩ | ⟨hwork, hbehind⟩
      · exact Or.inr (Or.inl (by simp [Active, State.goCpu, hwork]))
      · by_cases hact : Active s c
        · refine Or.inr (Or.inl ?_)
          simpa [Active, State.goCpu, hwork, hat, hbehind] using hact
        · exact Or.inr (Or.inr ⟨hact, rfl⟩)
  | idle | finish | expire | put | dispatch =>
      exact Or.inr (Or.inl (by simp [Active, State.goCpu]))

/-- The other threads do not take a CPU its process or its slot. -/
theorem active_other {c : Fin n} {a : Act n} (ha : a ≠ .cpu c) (hstep : Step cfg s a s')
    (htime : s'.timer.time = s.timer.time) (h : Active s c) : Active s' c := by
  have hview := view_other ha hstep
  have hplace : s'.cpu c = s.cpu c := congrArg View.place hview
  have hhold : s'.sched.hold c = s.sched.hold c := congrArg View.proc hview
  have hbehind := behind_other (d := some c) ha hstep htime
  simpa only [Active, hplace, hhold, hbehind] using h

/-- The slot in which the loader has added a process ends when `_time` advances. -/
theorem slotOpen_until (hS : Sound cfg s) (h : SlotOpen s) {a : Act n}
    (hstep : Step cfg s a s') (htime : s'.timer.time = s.timer.time) : SlotOpen s' := by
  obtain ⟨hld, hret⟩ := h
  have hbehind : s.timer.behind none = false := by simp [Timer.State.behind, hret]
  have hkeep : ∀ {b : Timer.Act (Device n)},
      Timer.Step (devList n) s.timer b s'.timer → b ≠ .check none →
      s'.timer.returned none = s'.timer.time := by
    intro b hb hne
    rw [Timer.returned_step hb hne, hret, htime]
  cases osStep_of_step hstep with
  | cpu hcpu =>
      refine ⟨hcpu.frame.ld ▸ hld, ?_⟩
      cases hcpu with
      | enter _ ht | nextSlot _ ht | detach _ ht => exact hkeep ht (by simp)
      | exec => simpa [State.goCpu] using hret
      | _ => exact hret
  | timer hown ht => exact ⟨hld, hkeep ht (hown none).2.1⟩
  | ld hldStep =>
      cases hldStep with
      | enterAdd _ ht => exact ⟨Or.inr rfl, hkeep ht (by simp)⟩
      | nextSlotAdd _ ht =>
          obtain ⟨hwork, hsame⟩ := Timer.stays_of_check hS.timer ht hbehind
          refine ⟨Or.inr (by simp [State.goLd, hwork]), ?_⟩
          exact hsame.trans (hret.trans htime.symm)
      | load hat | loaded hat | early hat | due hat | enterWait hat | nextSlotWait hat
        | add hat | setDone hat | detach hat => simp [hat] at hld

/-- Every step keeps the slots busy. -/
theorem Busy.step (hn : 0 < n) (hS : Sound cfg s) (h : Busy s) {a : Act n}
    (hstep : Step cfg s a s') : Busy s' := by
  intro hready
  by_cases htime : s'.timer.time = s.timer.time
  · have hkeep : s.sched.mlq.ready ≠ [] → (∀ c, a ≠ .cpu c ∨ ¬ Active s c) →
        (∃ c, Active s' c) ∨ SlotOpen s' := by
      intro hne hother
      rcases h hne with ⟨c, hc⟩ | hopen
      · exact Or.inl ⟨c, active_other ((hother c).resolve_right fun hnot => hnot hc) hstep
          htime hc⟩
      · exact Or.inr (slotOpen_until hS hopen hstep htime)
    cases a with
    | cpu c =>
        rcases active_cpuStep hS (cpuStep_of_cpuRoutine hstep) with
          hnil | hact | ⟨hnot, hsched⟩
        · exact absurd hnil hready
        · exact Or.inl ⟨c, hact⟩
        · rw [hsched] at hready
          refine hkeep hready fun d => ?_
          by_cases hdc : c = d
          · exact Or.inr (hdc ▸ hnot)
          · exact Or.inl (by simpa using hdc)
    | ld =>
        cases ldStep_of_ldRoutine hstep with
        | add hat hd =>
            -- the loader works in the current slot
            have hdev : s.timer.dev none = .working := by
              have hagrees := hS.linked.ld
              rwa [hat] at hagrees
            exact Or.inr ⟨Or.inl rfl, ((hS.timer.deviceOk none (mem_devList none)).working
              hdev).2⟩
        | _ => exact hkeep hready fun c => Or.inl (by simp)
    | tick | wakeTimer | wake d | stop =>
        obtain ⟨t, -, rfl⟩ := Option.map_eq_some_iff.mp hstep
        exact hkeep hready fun c => Or.inl (by simp)
  · obtain ⟨t, ht, rfl⟩ := tick_of_time hstep htime
    rcases h hready with ⟨c, hc⟩ | hopen
    · refine Or.inl ⟨c, active_of_advance hS ht htime fun hat => ?_⟩
      simp [Active, hat] at hc
    · -- the first CPU has not stopped, since `done` is not set
      refine Or.inl ⟨⟨0, hn⟩, active_of_advance hS ht htime fun hat => ?_⟩
      exact hopen.not_done hS.linked (hS.linked.gone _ (Or.inr hat)).2

/-! ## The loader -/

/-- The loader is at most one slot for each process behind the last start time `last`. -/
def Loading (last : Nat) (s : State n) : Prop :=
  match s.ld with
  | .load | .wait | .add => s.timer.time ≤ last + s.i
  | .enterWait => s.timer.time < last + s.i
  | .inSlotWait =>
      s.timer.time < last + s.i ∨ s.timer.behind none = true ∧ s.timer.time ≤ last + s.i
  | .enterAdd => s.timer.time < last + s.i
  | .inSlotAdd =>
      s.timer.time < last + s.i ∨ s.timer.behind none = true ∧ s.timer.time ≤ last + s.i
  | _ => True

/-- The loader begins in slot 0. -/
theorem loading_boot (last : Nat) : Loading last (boot : State n) :=
  Nat.zero_le _

/-- The loader waits for the start time of the next process. -/
theorem early_of_step (hat : s.ld = .wait) (hstep : Step cfg s .ld s')
    (hat' : s'.ld = .enterWait) : s.timer.time < cfg.startTime s.i := by
  by_contra hdue
  simp only [Step, Os.step, ldRoutine, hat, if_neg hdue, Option.some_inj] at hstep
  subst hstep
  cases hat'

/-- The loader keeps up with the start times. -/
theorem Loading.ldStep (hS : Sound cfg s) {last : Nat}
    (hlast : s.i < cfg.numProcesses → cfg.startTime s.i ≤ last) (h : Loading last s)
    (hstep : Step cfg s .ld s') : Loading last s' := by
  have hcounts := hS.linked.counts
  have htime : ∀ {b : Timer.Act (Device n)} {t : Timer.State (Device n)},
      Timer.Step (devList n) s.timer b t → b ≠ .tick → t.time = s.timer.time :=
    fun ht hne => (Timer.time_step ht).resolve_right fun htick => hne htick.1
  cases ldStep_of_ldRoutine hstep with
  | load hat => simpa [Loading, hat, State.goLd] using h
  | loaded | setDone | detach => trivial
  | early hat =>
      have hlt := early_of_step hat hstep rfl
      rw [hat] at hcounts
      have hle := hlast hcounts
      simp only [Loading, State.goLd]
      omega
  | due hat => simpa [Loading, hat, State.goLd] using h
  | enterWait hat ht | enterAdd hat ht =>
      simp only [Loading, hat] at h
      exact Or.inl (by simpa [State.goLd, htime ht] using h)
  | nextSlotWait hat ht | nextSlotAdd hat ht =>
      have hsame := htime ht (by simp)
      rcases Timer.behind_check hS.timer ht with ⟨hwork, -⟩ | ⟨hwork, hbehind⟩
      · simp only [Loading, hat] at h
        simp only [Loading, State.goLd, hwork, if_true, hsame]
        omega
      · simpa [Loading, hat, State.goLd, hwork, hsame, hbehind] using h
  | add hat =>
      simp only [Loading, hat] at h
      simp only [Loading, State.goLd]
      omega

/-- Every step keeps the loader on time. -/
theorem Loading.step (hS : Sound cfg s) {last : Nat}
    (hlast : s.i < cfg.numProcesses → cfg.startTime s.i ≤ last) (h : Loading last s)
    {a : Act n} (hstep : Step cfg s a s') : Loading last s' := by
  by_cases htime : s'.timer.time = s.timer.time
  · have hkeep : a ≠ .ld → s'.ld = s.ld → s'.i = s.i → Loading last s' := by
      intro ha hld hi
      have hbehind := behind_other (d := none) ha hstep htime
      simpa only [Loading, hld, hi, htime, hbehind] using h
    cases a with
    | cpu c =>
        have hframe := (cpuStep_of_cpuRoutine hstep).frame
        exact hkeep (by simp) hframe.ld hframe.i
    | ld => exact h.ldStep hS hlast hstep
    | tick | wakeTimer | wake d | stop =>
        obtain ⟨t, -, rfl⟩ := Option.map_eq_some_iff.mp hstep
        exact hkeep (by simp) rfl rfl
  · obtain ⟨t, ht, rfl⟩ := tick_of_time hstep htime
    have hone := ((Timer.time_step ht).resolve_left htime).2
    have hagrees := hS.linked.ld
    obtain ⟨-, hdet | ⟨hin, hbehind, hbehind'⟩⟩ :=
      Timer.advanced_of_time hS.timer ht htime (mem_devList none)
    · rw [hdet] at hagrees
      cases hat : s.ld <;> simp_all [LdAt.Agrees, Loading]
    · cases hat : s.ld with
      | inSlotWait | inSlotAdd =>
          simp only [Loading, hat, hbehind, Bool.false_eq_true, false_and, or_false] at h
          simp only [Loading, hbehind', true_and, hone]
          omega
      | setDone | detach | finished => simp [Loading]
      | load | wait | enterWait | add | enterAdd =>
          rw [hat] at hagrees
          rcases hin with hin | hin <;> simp [LdAt.Agrees, hin] at hagrees

/-- Up to the slot after the last `add_proc`. -/
theorem Loading.time_le (hS : Sound cfg s) {last : Nat} (h : Loading last s)
    (hopen : s.i < cfg.numProcesses ∨ SlotOpen s) : s.timer.time ≤ last + s.i := by
  have hcounts := hS.linked.counts
  unfold Loading at h
  cases hat : s.ld with
  | setDone | detach | finished =>
      rw [hat] at hcounts
      rcases hopen with hlt | ⟨hld, -⟩
      · simp only [LdAt.Counts] at hcounts
        omega
      · simp [hat] at hld
  | load | wait | enterWait | inSlotWait | add | enterAdd | inSlotAdd =>
      rw [hat] at h
      simp only at h
      omega

/-! ## The account of the slots -/

/-- 1 when `run` has been called in the current slot. -/
def State.spent (s : State n) : Nat :=
  if ∃ c, s.sched.hold c ≠ none ∧ s.ran c = 1 then 1 else 0

/-- A slot is spent once. -/
theorem spent_le_one (s : State n) : s.spent ≤ 1 := by
  unfold State.spent
  split_ifs <;> omega

/-- Every process has been added and has executed its whole program. -/
def AllDone (cfg : Config) (s : State n) : Prop :=
  s.i = cfg.numProcesses ∧ ∀ p < cfg.numProcesses, s.pc p = cfg.codeSize p

/-- What has been executed stays so. -/
theorem AllDone.step (hS : Sound cfg s) (h : AllDone cfg s) {a : Act n}
    (hstep : Step cfg s a s') : AllDone cfg s' := by
  obtain ⟨hi, hpc⟩ := h
  constructor
  · rcases i_step hstep with hsame | ⟨hat, -⟩
    · exact hsame.trans hi
    · have hcounts := hS.linked.counts
      rw [hat] at hcounts
      simp only [LdAt.Counts] at hcounts
      omega
  · intro p hp
    have hend := hpc p hp
    rcases pc_step hstep p with hsame | ⟨c, -, hlt, -⟩
    · exact hsame.trans hend
    · omega

/-- When every CPU has stopped, nothing is left to do. -/
theorem allDone_of_stopped (hn : 0 < n) (hnum : cfg.numProcesses ≤ maxQueueSize)
    {es : List (Act n)} (h : Lts.Run (Step cfg) boot es s)
    (hstopped : ∀ c, s.cpu c = .stopped) : AllDone cfg s := by
  have hL := linked_of_run h
  have hgone : ∀ c, s.sched.hold c = none := fun c => (hL.gone c (Or.inr (hstopped c))).1
  have hnone : s.sched.mlq.ready = [] := by
    by_contra hne
    rcases (watched_of_run hn h).ready hne with ⟨c, hc⟩ | ⟨-, c, hc⟩
    · exact hc (Or.inr (Or.inl (hstopped c)))
    · rw [hstopped c] at hc
      cases hc
  have hi : s.i = cfg.numProcesses := by
    have hcounts := hL.counts
    rcases hL.done_iff.mp (hL.gone ⟨0, hn⟩ (Or.inr (hstopped _))).2 with hld | hld <;>
      rwa [hld] at hcounts
  refine ⟨hi, ?_⟩
  intro p hp
  rcases (placed_of_run hnum h).placed p (by rwa [hi]) with hready | ⟨c, hc⟩ | hfin
  · rw [hnone] at hready
    cases hready
  · rw [hgone c] at hc
    cases hc
  · exact hfin

/-- A CPU that has called `run` in the current slot has done so in this step or before. -/
theorem ran_of_step (hS : Sound cfg s) {a : Act n} (hstep : Step cfg s a s')
    (htime : s'.timer.time = s.timer.time) {c : Fin n} (hhold : s'.sched.hold c ≠ none)
    (hran : s'.ran c = 1) :
    (∃ p, visible cfg s a = some (.call c p)) ∨ s.sched.hold c ≠ none ∧ s.ran c = 1 := by
  by_cases ha : a = .cpu c
  · subst ha
    have hended := ended_of_ran hran
    cases cpuStep_of_cpuRoutine hstep with
    | exec _ hat hheld =>
        left
        rw [visible_held hheld, hat]
        exact ⟨_, rfl⟩
    | enter hat ht =>
        have hbehind := Timer.behind_step ht htime (d := some c) (by simp)
        refine Or.inr ⟨hhold, ?_⟩
        simpa [State.ran, State.goCpu, hat, CpuAt.ended, hbehind] using hran
    | nextSlot hat ht =>
        rcases Timer.behind_check hS.timer ht with ⟨hwork, -⟩ | ⟨hwork, hbehind⟩
        · simp [State.goCpu, hwork, CpuAt.ended] at hended
        · refine Or.inr ⟨hhold, ?_⟩
          simpa [State.ran, State.goCpu, hat, CpuAt.ended, hwork, hbehind] using hran
    | @getIdle d _ hd =>
        simp only [State.goCpu, Function.update_self] at hended
        split_ifs at hended with hnone
        · exact absurd hnone hhold
        · cases hended
    | skip _ hnone => exact absurd hnone hhold
    | idle | finish | expire | keep | get | put | exit | dispatch | detach =>
        simp [State.goCpu, CpuAt.ended] at hended
  · have hview := view_other ha hstep
    have hplace : s'.cpu c = s.cpu c := congrArg View.place hview
    have hsame : s'.sched.hold c = s.sched.hold c := congrArg View.proc hview
    have hbehind := behind_other (d := some c) ha hstep htime
    refine Or.inr ⟨hsame ▸ hhold, ?_⟩
    simpa only [State.ran, hplace, hbehind] using hran

/-- A slot in which `run` has not been called ends while the loader loads, or when all
programs have been executed. -/
theorem done_of_idle_slot (hS : Sound cfg s) (hP : Processes cfg s) (hB : Busy s)
    {t : Timer.State (Device n)} (ht : Timer.Step (devList n) s.timer .tick t)
    (htime : t.time ≠ s.timer.time) (hspent : s.spent = 0) :
    s.i < cfg.numProcesses ∨ SlotOpen s ∨ AllDone cfg s := by
  have hidle : ∀ c, s.sched.hold c = none := by
    intro c
    by_contra hhold
    rcases cpu_of_advance hS ht htime c with hat | ⟨hat, hbehind, -⟩
    · exact hhold (hS.linked.gone c (Or.inr hat)).1
    · rw [State.spent, if_pos ⟨c, hhold, by simp [State.ran, hat, CpuAt.ended, hbehind]⟩]
        at hspent
      cases hspent
  by_cases hi : s.i < cfg.numProcesses
  · exact Or.inl hi
  · by_cases hopen : SlotOpen s
    · exact Or.inr (Or.inl hopen)
    · have hnil : s.sched.mlq.ready = [] := by
        by_contra hready
        rcases hB hready with ⟨c, hc⟩ | hopen'
        · rcases cpu_of_advance hS ht htime c with hat | ⟨hat, hbehind, -⟩
          · simp [Active, hat] at hc
          · simp [Active, hat, hbehind, hidle c] at hc
        · exact hopen hopen'
      have hall := Nat.le_antisymm hS.linked.counts.le (Nat.not_lt.mp hi)
      refine Or.inr (Or.inr ⟨hall, ?_⟩)
      intro p hp
      rcases hP.placed p (hall ▸ hp) with hr | ⟨c, hc⟩ | hfin
      · simp [hnil] at hr
      · simp [hidle c] at hc
      · exact hfin

/-- What is known of every state of a simulation whose processes have room. -/
structure Sped (cfg : Config) (last : Nat) (s : State n) : Prop where
  sound : Sound cfg s
  processes : Processes cfg s
  busy : Busy s
  loading : Loading last s

/-- Every slot so far is paid for by a call, or by the loader. -/
def Paid (cfg : Config) (last : Nat) (es : List (Option (SliceEvent n))) (s : State n) :
    Prop :=
  s.timer.time + s.spent ≤ last + cfg.numProcesses + 1 + es.countP SliceEvent.isCall ∨
    AllDone cfg s

/-- One more event counts when it is a call. -/
theorem countP_isCall_snoc (es : List (Option (SliceEvent n))) (e : Option (SliceEvent n)) :
    (es ++ [e]).countP SliceEvent.isCall =
      es.countP SliceEvent.isCall + (SliceEvent.isCall e).toNat := by
  cases hcall : SliceEvent.isCall e <;> simp [hcall]

/-- Within a slot, only a call makes it a slot in which work has been done. -/
theorem spent_of_same_slot (h : Sound cfg s) {a : Act n} (hact : Step cfg s a s')
    (htime : s'.timer.time = s.timer.time) :
    s'.spent ≤ s.spent + (SliceEvent.isCall (visible cfg s a)).toNat := by
  have hspent := spent_le_one s'
  by_cases hnew : s'.spent = 1 ∧ s.spent = 0
  · -- the first call of the slot
    obtain ⟨hone, hzero⟩ := hnew
    have hcall : SliceEvent.isCall (visible cfg s a) = true := by
      unfold State.spent at hone hzero
      split_ifs at hone with hex
      obtain ⟨c, hhold, hran⟩ := hex
      rcases ran_of_step h hact htime hhold hran with ⟨p, hcall⟩ | hold
      · rw [hcall]
        rfl
      · rw [if_pos ⟨c, hold⟩] at hzero
        cases hzero
    rw [hcall, Bool.toNat_true]
    omega
  · omega

/-- At the start of a slot no CPU has done its work. -/
theorem ran_of_advance (h : Sound cfg s) {t : Timer.State (Device n)}
    (ht : Timer.Step (devList n) s.timer .tick t) (htime : t.time ≠ s.timer.time)
    (c : Fin n) : ({ s with timer := t } : State n).ran c = 0 := by
  rcases cpu_of_advance h ht htime c with hat | ⟨hat, -, hbehind⟩
  · simp [State.ran, hat, CpuAt.ended]
  · simp [State.ran, hbehind]

/-- Nothing has been called yet in a new slot. -/
theorem spent_of_advance (h : Sound cfg s) {t : Timer.State (Device n)}
    (ht : Timer.Step (devList n) s.timer .tick t) (htime : t.time ≠ s.timer.time) :
    ({ s with timer := t } : State n).spent = 0 := by
  rw [State.spent, if_neg]
  rintro ⟨c, -, hran⟩
  rw [ran_of_advance h ht htime c] at hran
  cases hran

/-- A slot that ends was one of work or one of the loader, or all programs are done. -/
theorem Sped.slot_used {last : Nat} (hJ : Sped cfg last s) {t : Timer.State (Device n)}
    (ht : Timer.Step (devList n) s.timer .tick t) (htime : t.time ≠ s.timer.time) :
    s.spent = 1 ∨ s.timer.time ≤ last + cfg.numProcesses ∨ AllDone cfg s := by
  have hle := spent_le_one s
  have hadded := Nat.add_le_add_left hJ.sound.linked.counts.le last
  rcases Nat.eq_zero_or_pos s.spent with hidle | hpos
  · rcases done_of_idle_slot hJ.sound hJ.processes hJ.busy ht htime hidle with
      hi | hopen | hdone
    · exact Or.inr (Or.inl ((hJ.loading.time_le hJ.sound (Or.inl hi)).trans hadded))
    · exact Or.inr (Or.inl ((hJ.loading.time_le hJ.sound (Or.inr hopen)).trans hadded))
    · exact Or.inr (Or.inr hdone)
  · exact Or.inl (by omega)

/-- Every step keeps the slots paid for. -/
theorem Paid.step {last : Nat} (hJ : Sped cfg last s) {es : List (Option (SliceEvent n))}
    (h : Paid cfg last es s) {e : Option (SliceEvent n)} (hstep : SliceStep cfg s e s') :
    Paid cfg last (es ++ [e]) s' := by
  obtain ⟨a, hact, rfl⟩ := hstep
  rcases h with hpaid | hdone
  · have hcount := countP_isCall_snoc es (visible cfg s a)
    by_cases htime : s'.timer.time = s.timer.time
    · left
      have hspent := spent_of_same_slot hJ.sound hact htime
      rw [hcount, htime]
      omega
    · obtain ⟨t, ht, rfl⟩ := tick_of_time hact htime
      have hone := ((Timer.time_step ht).resolve_left htime).2
      have hzero := spent_of_advance hJ.sound ht htime
      rcases hJ.slot_used ht htime with hspent | hload | hdone
      · left
        rw [hcount, hzero]
        simp only [hone]
        omega
      · left
        rw [hcount, hzero]
        simp only [hone]
        omega
      · exact Or.inr (hdone.step hJ.sound hact)
  · exact Or.inr (hdone.step hJ.sound hact)

/-! ## Every run -/

/-- The invariants hold in every reachable state. -/
theorem sped_of_run (hn : 0 < n) (hnum : cfg.numProcesses ≤ maxQueueSize) {last : Nat}
    (hlast : ∀ p < cfg.numProcesses, cfg.startTime p ≤ last) {es : List (Act n)}
    (h : Lts.Run (Step cfg) boot es s) : Sped cfg last s where
  sound := Sound.of_run h
  processes := placed_of_run hnum h
  busy := h.invariant_of (fun _ _ hrun => Sound.of_run hrun) busy_boot
    fun _ _ _ hS hB hstep => hB.step hn hS hstep
  loading := h.invariant_of (fun _ _ hrun => Sound.of_run hrun) (loading_boot last)
    fun t _ _ hS hL hstep => hL.step hS (hlast t.i) hstep

/-- Every slot of a run is paid for, or all is done. -/
theorem paid_of_run (hn : 0 < n) (hnum : cfg.numProcesses ≤ maxQueueSize) {last : Nat}
    (hlast : ∀ p < cfg.numProcesses, cfg.startTime p ≤ last)
    {es : List (Option (SliceEvent n))} (h : Lts.Run (SliceStep cfg) boot es s) :
    Paid cfg last es s := by
  apply h.history_of (J := Sped cfg last)
  · intro es t hrun
    obtain ⟨as, has⟩ := run_of_sliceRun hrun
    exact sped_of_run hn hnum hlast has
  · exact Or.inl (by simp [State.spent, boot, Dispatch.boot, Timer.start])
  · exact fun _ _ _ _ hJ hP hstep => hP.step hJ hstep

/-- The slots that the programs take, when the last of them may start at `last`. -/
def Config.slots (cfg : Config) (last : Nat) : Nat :=
  last + cfg.numProcesses + 1 + cfg.totalCalls

/-- More slots than there are payments for, and all is done. -/
theorem allDone_of_time (hn : 0 < n) (hnum : cfg.numProcesses ≤ maxQueueSize) {last : Nat}
    (hlast : ∀ p < cfg.numProcesses, cfg.startTime p ≤ last) {es : List (Act n)}
    (h : Lts.Run (Step cfg) boot es s) (htime : cfg.slots last < s.timer.time) :
    AllDone cfg s := by
  obtain ⟨evs, hrun⟩ := sliceRun_of_run h
  refine (paid_of_run hn hnum hlast hrun).resolve_left fun hpaid => ?_
  have hcalls := countP_isCall_le hrun
  simp only [Config.slots] at htime
  omega

/-- After the only process is done, the second CPU goes on for four slots. -/
theorem time_of_lastProcess :
    ∃ s : State 2,
      Lts.exec (step lastConfig) boot (lastProcess ++ (List.replicate 4
        (List.replicate 3 (.cpu 1) ++ List.replicate 9 .tick ++ [.cpu 1])).flatten) = some s ∧
      3 < s.timer.time := by
  have hend : (Lts.exec (step lastConfig) (boot : State 2)
      (lastProcess ++ (List.replicate 4
        (List.replicate 3 (.cpu 1) ++ List.replicate 9 .tick ++ [.cpu 1])).flatten)).any
        (fun s => decide (3 < s.timer.time)) = true := by
    decide +kernel
  obtain ⟨s, hs, htime⟩ := (Option.any_eq_true _ _).mp hend
  exact ⟨s, hs, of_decide_eq_true htime⟩

end Os
end Hdh
