import Hdh.Os.Slices
import Hdh.Timer.Progress

/-!
# The simulation makes progress

The threads of the simulator share three mutexes, two condition variables a device and
the flag `done`, and each of them waits for the others in `next_slot`.  A thread outside
of `next_slot` can always go on: where it calls the scheduler it holds a process, or none,
as the call needs.  With what is known of the timer, some thread can go on until all have
stopped.  That the threads do not run round in one slot is seen from the potential of
the timer, to which the sections are added that each thread executes up to its next
`next_slot`.

Main results:

- Theorem `cpu_enabled` and `ld_enabled`: a thread that is not asleep has a step.
- Theorem `work_step`: each step uses up a part of the work of its slot.
- Theorem `simulation_progress`: the simulation does not get stuck, neither in a deadlock nor
  in a slot.
-/

namespace Hdh
namespace Os

open Sched

variable {n : Nat} {cfg : Config} {s s' : State n}

/-! ## A thread can go on -/

/-- What a CPU at `a` holds when it calls the scheduler or `run`. -/
def CpuAt.Holds : CpuAt → Option Nat → Prop
  | .getIdle, proc => proc = none
  | .getFin, proc => proc = none
  | .getPut, proc => proc = none
  | .put, proc => proc ≠ none
  | .exec, proc => proc ≠ none
  | _, _ => True

/-- The calls of the threads are defined. -/
structure Callable (s : State n) : Prop where
  holds : ∀ c, (s.cpu c).Holds (s.sched.hold c)
  alive_lt : ∀ p, s.sched.alive p = true → p < s.i

theorem callable_boot : Callable (boot : State n) := by
  constructor <;> simp [boot, Dispatch.boot, CpuAt.Holds]

/-- The step of a CPU leads to a place at which it holds what it needs. -/
theorem ViewStep.holds {c : Fin n} {v v' : View} {e : Option (SliceEvent n)}
    (h : ViewStep cfg s c v e v') : v'.place.Holds v'.proc := by
  cases h with
  | leave _ hplace =>
      rcases hplace with rfl | rfl <;> exact trivial
  | pass _ _ _ hplace =>
      rcases hplace with rfl | rfl | rfl <;> exact trivial
  | idle | finish | getPut => first | rfl | exact trivial
  | _ => first | trivial | exact Option.some_ne_none _

/-- A CPU brings no PCB into existence. -/
theorem alive_of_moves {c : Fin n} {d : Dispatch (Fin n) Nat} {b : DispatchAct (Fin n) Nat}
    (hb : b = .getProc c ∨ b = .putProc c ∨ b = .finish c)
    (hd : Dispatch.step cfg.fields s.sched b = some d) {p : Nat} (hp : d.alive p = true) :
    s.sched.alive p = true := by
  cases Dispatch.moves_of_step hd with
  | added | dropped => simp at hb
  | @finished _ q _ _ _ halive =>
      rw [halive] at hp
      by_cases hpq : p = q
      · subst hpq
        simp at hp
      · rwa [Function.update_of_ne hpq] at hp
  | idle _ _ _ _ halive | got _ _ _ halive | returned _ _ _ halive | lost _ _ _ _ halive =>
      rwa [halive] at hp

theorem alive_cpuStep {c : Fin n} (h : CpuStep cfg s c s') {p : Nat}
    (hp : s'.sched.alive p = true) : s.sched.alive p = true := by
  cases h with
  | finish _ _ _ hd => exact alive_of_moves (Or.inr (Or.inr rfl)) hd hp
  | getIdle _ hd => exact alive_of_moves (Or.inl rfl) hd hp
  | get _ _ hd => exact alive_of_moves (Or.inl rfl) hd hp
  | put _ hd => exact alive_of_moves (Or.inr (Or.inl rfl)) hd hp
  | exec => simpa [State.goCpu] using hp
  | _ => exact hp

/-- Every step leaves the calls of the threads defined. -/
theorem Callable.step (h : Callable s) {a : Act n} (hstep : Step cfg s a s') :
    Callable s' := by
  constructor
  · intro c
    by_cases ha : a = .cpu c
    · subst ha
      exact (view_step hstep).holds
    · have hview := view_other ha hstep
      have hplace : s'.cpu c = s.cpu c := congrArg View.place hview
      have hproc : s'.sched.hold c = s.sched.hold c := congrArg View.proc hview
      rw [hplace, hproc]
      exact h.holds c
  · intro p hp
    cases osStep_of_step hstep with
    | cpu hcpu =>
        rw [hcpu.frame.i]
        exact h.alive_lt p (alive_cpuStep hcpu hp)
    | timer => exact h.alive_lt p hp
    | ld hld =>
        cases hld with
        | add _ hd =>
            have hnew : p = s.i ∨ s.sched.alive p = true := by
              cases Dispatch.moves_of_step hd with
              | added _ _ _ halive | dropped _ _ _ _ halive =>
                  simp only [State.goLd, halive] at hp
                  by_cases hpi : p = s.i
                  · exact Or.inl hpi
                  · exact Or.inr (by rwa [Function.update_of_ne hpi] at hp)
            have hlt : p = s.i ∨ p < s.i := hnew.imp_right (h.alive_lt p)
            simp only [State.goLd]
            omega
        | _ => exact h.alive_lt p hp

theorem Callable.of_run {es : List (Act n)} (h : Lts.Run (Step cfg) boot es s) :
    Callable s :=
  h.invariant callable_boot fun _ _ _ hI hstep => hI.step hstep

/-- The levels of the processes exist. -/
def Config.Levels (cfg : Config) : Prop :=
  ∀ p < cfg.numProcesses, cfg.prio p < maxPrio

/-- What every reachable state has. -/
structure Sound (cfg : Config) (s : State n) : Prop where
  timer : Timer.LockStep (devList n) s.timer
  stop : Timer.StopOk (devList n) s.timer
  sched : Dispatch.Exclusive s.sched
  linked : Linked cfg s
  callable : Callable s

theorem Sound.of_run {es : List (Act n)} (h : Lts.Run (Step cfg) boot es s) :
    Sound cfg s where
  timer := timer_of_run h
  stop := by
    have hreach : Lts.Reachable (Timer.Step (devList n)) Timer.start s.timer :=
      Lts.Run.simulate State.timer (fun _ _ _ hstep => timer_step hstep) h
    obtain ⟨bs, hrun⟩ := hreach
    exact Timer.StopOk.of_run hrun
  sched := sched_of_run h
  linked := linked_of_run h
  callable := Callable.of_run h

/-- A process that a CPU holds has a level. -/
theorem Sound.prio_lt (h : Sound cfg s) (hlevels : cfg.Levels) {c : Fin n} {p : Nat}
    (hheld : s.sched.hold c = some p) : cfg.prio p < maxPrio := by
  have hlt := h.callable.alive_lt p (h.sched.hold_alive c p hheld)
  exact hlevels p (Nat.lt_of_lt_of_le hlt h.linked.counts.le)

/-- A thread that works in its slot can enter `next_slot` and detach. -/
theorem timer_enabled {d : Device n} (hwork : s.timer.dev d = .working) :
    (Timer.step (devList n) s.timer (.enter d)).isSome ∧
      (Timer.step (devList n) s.timer (.detach d)).isSome := by
  simp [Timer.step, Timer.enter, Timer.detachEvent, hwork]

/-- A thread that is awake in `next_slot` can go on. -/
theorem timer_check_enabled {d : Device n} (hent : s.timer.dev d = .entered) :
    (Timer.step (devList n) s.timer (.check d)).isSome := by
  simp only [Timer.step, mem_devList, if_true, Timer.check, hent]
  split_ifs <;> rfl

/-- A CPU that has not stopped and is not asleep in `next_slot` has a step. -/
theorem cpu_enabled (h : Sound cfg s) (hlevels : cfg.Levels) (c : Fin n)
    (hstopped : s.cpu c ≠ .stopped)
    (hawake : s.cpu c = .inSlot → s.timer.dev (some c) = .entered) :
    (step cfg s (.cpu c)).isSome := by
  have hagrees := h.linked.cpu c
  have hholds := h.callable.holds c
  simp only [step, cpuRoutine]
  cases hat : s.cpu c with
  | top =>
      cases hheld : s.sched.hold c with
      | none => rfl
      | some p =>
          simp only
          split_ifs
          · simp [State.onSched, Dispatch.step, hheld]
          · rfl
          · rfl
  | getIdle | getFin | getPut =>
      rw [hat] at hholds
      have hnone : s.sched.hold c = none := hholds
      simp [State.getProc, State.onSched, Dispatch.step, hnone]
  | put =>
      rw [hat] at hholds
      obtain ⟨p, hheld⟩ := Option.ne_none_iff_exists'.mp hholds
      have hprio : cfg.fields.prio p < maxPrio := h.prio_lt hlevels hheld
      simp [State.onSched, Dispatch.step, hheld, MlqState.putMlqProc, hprio]
  | recheck =>
      cases hheld : s.sched.hold c with
      | none =>
          simp only
          split_ifs <;> rfl
      | some p =>
          simp only
          split_ifs <;> rfl
  | exec =>
      rw [hat] at hholds
      obtain ⟨p, hheld⟩ := Option.ne_none_iff_exists'.mp hholds
      simp [hheld]
  | enter =>
      rw [hat] at hagrees
      simpa [State.onTimer] using (timer_enabled (s := s) hagrees).1
  | inSlot => simpa [State.nextSlotCpu, State.onTimer] using timer_check_enabled (hawake hat)
  | detach =>
      rw [hat] at hagrees
      simpa [State.onTimer] using (timer_enabled (s := s) hagrees).2
  | stopped => exact absurd hat hstopped

/-- So has the loader. -/
theorem ld_enabled (h : Sound cfg s) (hlevels : cfg.Levels) (hfinished : s.ld ≠ .finished)
    (hawake : s.ld = .inSlotWait ∨ s.ld = .inSlotAdd → s.timer.dev none = .entered) :
    (step cfg s .ld).isSome := by
  have hagrees := h.linked.ld
  have hcounts := h.linked.counts
  simp only [step, ldRoutine]
  cases hat : s.ld with
  | load | wait =>
      simp only
      split_ifs <;> rfl
  | enterWait | enterAdd =>
      rw [hat] at hagrees
      simpa [State.onTimer] using (timer_enabled (s := s) hagrees).1
  | inSlotWait =>
      simpa [State.nextSlotLd, State.onTimer] using timer_check_enabled (hawake (Or.inl hat))
  | inSlotAdd =>
      simpa [State.nextSlotLd, State.onTimer] using timer_check_enabled (hawake (Or.inr hat))
  | add =>
      rw [hat] at hcounts
      have hnew : s.sched.alive s.i = false := by
        by_contra halive
        exact Nat.lt_irrefl _ (h.callable.alive_lt _ (Bool.not_eq_false _ ▸ halive))
      have hprio : cfg.fields.prio s.i < maxPrio := hlevels s.i hcounts
      simp [State.onSched, Dispatch.step, hnew, MlqState.addMlqProc, hprio]
  | setDone => rfl
  | detach =>
      rw [hat] at hagrees
      simpa [State.onTimer] using (timer_enabled (s := s) hagrees).2
  | finished => exact absurd hat hfinished

/-! ## Nobody waits for ever -/

/-- The steps that the threads execute themselves. -/
def Act.Own : Act n → Prop
  | .tick => True
  | .cpu _ => True
  | .ld => True
  | _ => False

theorem stopped_of_detached (h : Linked cfg s)
    (hall : ∀ d ∈ devList n, s.timer.dev d = .detached) :
    (∀ c, s.cpu c = .stopped) ∧ s.ld = .finished := by
  constructor
  · intro c
    have hagrees := h.cpu c
    rw [hall (some c) (mem_devList _)] at hagrees
    cases hat : s.cpu c with
    | stopped => rfl
    | _ => simp [hat, CpuAt.Agrees] at hagrees
  · have hagrees := h.ld
    rw [hall none (mem_devList _)] at hagrees
    cases hat : s.ld with
    | finished => rfl
    | _ => simp [hat, LdAt.Agrees] at hagrees

/-- A thread that works in its slot is outside of `next_slot`. -/
theorem own_enabled (h : Sound cfg s) (hlevels : cfg.Levels) {d : Device n}
    (hat : s.timer.dev d = .working ∨ s.timer.dev d = .entered) :
    ∃ a : Act n, a.Own ∧ (step cfg s a).isSome := by
  cases d with
  | none =>
      refine ⟨.ld, trivial, ld_enabled h hlevels ?_ ?_⟩
      · intro hfin
        have hagrees := h.linked.ld
        rw [hfin] at hagrees
        have hdev : s.timer.dev none = .detached := hagrees
        simp [hdev] at hat
      · intro hin
        have hagrees := h.linked.ld
        have hslot : s.timer.dev none = .entered ∨ s.timer.dev none = .asleep := by
          rcases hin with hin | hin <;> rwa [hin] at hagrees
        rcases hslot with hent | hasleep
        · exact hent
        · simp [hasleep] at hat
  | some c =>
      refine ⟨.cpu c, trivial, cpu_enabled h hlevels c ?_ ?_⟩
      · intro hstop
        have hagrees := h.linked.cpu c
        rw [hstop] at hagrees
        have hdev : s.timer.dev (some c) = .detached := hagrees
        simp [hdev] at hat
      · intro hin
        have hagrees := h.linked.cpu c
        rw [hin] at hagrees
        have hslot : s.timer.dev (some c) = .entered ∨ s.timer.dev (some c) = .asleep :=
          hagrees
        rcases hslot with hent | hasleep
        · exact hent
        · simp [hasleep] at hat

/-- When no thread can go on, all have stopped. -/
theorem all_stopped_of_stuck (h : Sound cfg s) (hlevels : cfg.Levels)
    (hstuck : ∀ a : Act n, a.Own → step cfg s a = none) :
    (∀ c, s.cpu c = .stopped) ∧ s.ld = .finished ∧
      (s.timer.timer = .left ∨ s.timer.timer = .stopped) := by
  have hnot : ∀ d, ¬ (s.timer.dev d = .working ∨ s.timer.dev d = .entered) := by
    intro d hat
    obtain ⟨a, hown, hsome⟩ := own_enabled h hlevels hat
    simp [hstuck a hown] at hsome
  have htimer : ∀ b : Timer.Act (Device n), b.Pending →
      Timer.step (devList n) s.timer b = none := by
    intro b hb
    cases b with
    | tick => exact Option.map_eq_none_iff.mp (hstuck .tick trivial)
    | check d =>
        cases hdev : s.timer.dev d with
        | entered => exact absurd (Or.inr hdev) (hnot d)
        | _ => simp [Timer.step, Timer.check, hdev]
    | _ => exact absurd hb id
  rcases Timer.waits_for_working h.timer h.stop htimer with ⟨d, -, hwork, -⟩ | ⟨hgone, hall⟩
  · exact absurd (Or.inl hwork) (hnot d)
  · obtain ⟨hcpus, hld⟩ := stopped_of_detached h.linked hall
    exact ⟨hcpus, hld, hgone⟩

/-! ## The work of a slot -/

/-- The steps that are counted. -/
def Act.own : Act n → Nat
  | .tick | .cpu _ | .ld => 1
  | .wakeTimer | .wake _ | .stop => 0

/-- The spurious wake-ups. -/
def Act.spurious : Act n → Nat
  | .wakeTimer | .wake _ => 1
  | _ => 0

/-- The steps of a CPU outside of `timer.c` up to its next `next_slot`. -/
def CpuAt.work (behind : Bool) : CpuAt → Nat
  | .top => 5
  | .put => 4
  | .getIdle | .getFin | .getPut => 3
  | .recheck => 2
  | .exec => 1
  | .enter | .detach | .stopped => 0
  | .inSlot => if behind then 5 else 0

/-- The steps of the loader outside of `timer.c` up to its next `next_slot`. -/
def LdAt.work (behind : Bool) : LdAt → Nat
  | .load => 3
  | .wait => 2
  | .add | .setDone => 1
  | .enterWait | .enterAdd | .detach | .finished => 0
  | .inSlotWait | .inSlotAdd => if behind then 3 else 0

/-- The work of a CPU that is left in the current slot. -/
def State.cpuWork (s : State n) (c : Fin n) : Nat :=
  (s.cpu c).work (s.timer.behind (some c))

/-- The work that is left in the current slot. -/
def State.work (s : State n) : Nat :=
  s.timer.work (devList n) + ((List.finRange n).map s.cpuWork).sum +
    s.ld.work (s.timer.behind none)

/-- The work of a whole slot. -/
def slotWork (n : Nat) : Nat :=
  Timer.slotWork (n + 1) + 5 * n + 3

theorem CpuAt.work_le (a : CpuAt) (behind behind' : Bool) :
    a.work behind' ≤ a.work behind + 5 := by
  cases a <;> cases behind <;> cases behind' <;> decide

theorem LdAt.work_le (a : LdAt) (behind behind' : Bool) :
    a.work behind' ≤ a.work behind + 3 := by
  cases a <;> cases behind <;> cases behind' <;> decide

/-- A step in which the timer has paid for some of the work, and `c` for the rest. -/
theorem work_cpu {c : Fin n} {x y : Nat}
    (htimer : x + s'.timer.work (devList n) ≤ s.timer.work (devList n))
    (htime : s'.timer.time = s.timer.time) (hld : s'.ld = s.ld)
    (hcpu : ∀ d, d ≠ c → s'.cpu d = s.cpu d)
    (hbehind : ∀ d, d ≠ some c → s'.timer.behind d = s.timer.behind d)
    (hless : y + s'.cpuWork c ≤ s.cpuWork c) (hpaid : 1 ≤ x + y) :
    1 + s'.work + slotWork n * s.timer.time ≤ s.work + slotWork n * s'.timer.time := by
  have hchange : ((List.finRange n).map s'.cpuWork).sum + s.cpuWork c =
      ((List.finRange n).map s.cpuWork).sum + s'.cpuWork c := by
    apply Lts.sum_map_change (List.nodup_finRange n) (List.mem_finRange c)
    intro d hdc
    rw [State.cpuWork, State.cpuWork, hcpu d hdc, hbehind (some d) (by simpa using hdc)]
  simp only [State.work, htime, hld, hbehind none (by simp)]
  omega

/-- The same for the loader. -/
theorem work_ld {x y : Nat}
    (htimer : x + s'.timer.work (devList n) ≤ s.timer.work (devList n))
    (htime : s'.timer.time = s.timer.time) (hcpu : s'.cpu = s.cpu)
    (hbehind : ∀ d, d ≠ none → s'.timer.behind d = s.timer.behind d)
    (hless : y + s'.ld.work (s'.timer.behind none) ≤ s.ld.work (s.timer.behind none))
    (hpaid : 1 ≤ x + y) :
    1 + s'.work + slotWork n * s.timer.time ≤ s.work + slotWork n * s'.timer.time := by
  have hsame : s'.cpuWork = s.cpuWork := by
    funext c
    rw [State.cpuWork, State.cpuWork, hcpu, hbehind (some c) (by simp)]
  simp only [State.work, htime, hsame]
  omega

/-- A section of `timer.c` that a thread executes is paid for by the timer. -/
theorem timer_pays (hT : Timer.LockStep (devList n) s.timer) {b : Timer.Act (Device n)}
    {t : Timer.State (Device n)} (ht : Timer.step (devList n) s.timer b = some t)
    (hown : b.own = 1 ∧ b.spurious = 0) (htick : b ≠ .tick) :
    1 + t.work (devList n) ≤ s.timer.work (devList n) ∧ t.time = s.timer.time := by
  have hpaid := Timer.work_step nodup_devList hT ht
  have htime : t.time = s.timer.time :=
    (Timer.time_step ht).resolve_right fun hboth => htick hboth.1
  rw [hown.1, hown.2, htime] at hpaid
  exact ⟨by omega, htime⟩

/-- A CPU goes on outside of `timer.c`. -/
theorem work_turn {c : Fin n} {place : CpuAt} {t : State n} (htimer : t.timer = s.timer)
    (hld : t.ld = s.ld) (hcpu : t.cpu = s.cpu)
    (hless : ∀ b, 1 + place.work b ≤ (s.cpu c).work b) :
    1 + (t.goCpu c place).work + slotWork n * s.timer.time ≤
      s.work + slotWork n * (t.goCpu c place).timer.time := by
  apply work_cpu (c := c) (x := 0) (y := 1)
  · simp [State.goCpu, htimer]
  · simp [State.goCpu, htimer]
  · exact hld
  · intro d hdc
    simp [State.goCpu, hdc, hcpu]
  · simp [State.goCpu, htimer]
  · simpa [State.cpuWork, State.goCpu, htimer] using hless _
  · exact Nat.le_refl 1

/-- Each step of a CPU is paid for by the work of its slot. -/
theorem CpuStep.work (h : Sound cfg s) {c : Fin n} (hstep : CpuStep cfg s c s') :
    1 + s'.work + slotWork n * s.timer.time ≤ s.work + slotWork n * s'.timer.time := by
  have hcpu := hstep.frame.cpu
  cases hstep with
  | enter hat ht =>
      obtain ⟨hless, htime⟩ := timer_pays h.timer ht ⟨rfl, rfl⟩ (by simp)
      refine work_cpu hless htime rfl hcpu
        (fun d _ => Timer.behind_step ht htime (by simp)) (y := 0) ?_ (Nat.le_refl 1)
      -- a CPU that enters `next_slot` is not behind
      have hdev : s.timer.dev (some c) = .working := by
        have hagrees := h.linked.cpu c
        rwa [hat] at hagrees
      have hbehind := ((h.timer.deviceOk _ (mem_devList _)).devWork_working hdev).2
      rw [← Timer.behind_step ht htime (by simp)] at hbehind
      simp [State.cpuWork, State.goCpu, CpuAt.work, hbehind]
  | nextSlot hat ht =>
      obtain ⟨hless, htime⟩ := timer_pays h.timer ht ⟨rfl, rfl⟩ (by simp)
      refine work_cpu hless htime rfl hcpu
        (fun d hdc => Timer.behind_step ht htime (by simpa using Ne.symm hdc)) (y := 0) ?_
        (Nat.le_refl 1)
      rcases Timer.behind_check h.timer ht with ⟨hwork, hbehind⟩ | ⟨hwork, hbehind⟩
      · simp [State.cpuWork, State.goCpu, CpuAt.work, hat, hwork, hbehind]
      · simp [State.cpuWork, State.goCpu, CpuAt.work, hat, hwork, hbehind]
  | detach hat ht =>
      obtain ⟨hless, htime⟩ := timer_pays h.timer ht ⟨rfl, rfl⟩ (by simp)
      refine work_cpu hless htime rfl hcpu
        (fun d _ => Timer.behind_step ht htime (by simp)) (y := 0) ?_ (Nat.le_refl 1)
      simp [State.cpuWork, State.goCpu, CpuAt.work]
  | getIdle hat =>
      refine work_turn rfl rfl rfl ?_
      rw [hat]
      split_ifs <;> decide
  | get _ hat =>
      refine work_turn rfl rfl rfl ?_
      rcases hat with hat | hat <;> rw [hat] <;> decide
  | @exec p _ hat =>
      refine work_turn (run_timer p) ?_ ?_ ?_
      · unfold State.run
        split_ifs <;> rfl
      · unfold State.run
        split_ifs <;> rfl
      · rw [hat]
        decide
  | idle hat | finish hat | expire hat | keep hat | put hat | exit hat | skip hat
    | dispatch _ hat =>
      refine work_turn rfl rfl rfl ?_
      rw [hat]
      decide

/-- Each step of the loader is paid for by the work of its slot. -/
theorem LdStep.work (h : Sound cfg s) (hstep : LdStep cfg s s') :
    1 + s'.work + slotWork n * s.timer.time ≤ s.work + slotWork n * s'.timer.time := by
  have hcpu := hstep.frame.cpu
  have hnot : s.timer.dev none = .working → s.timer.behind none = false := fun hdev =>
    ((h.timer.deviceOk _ (mem_devList _)).devWork_working hdev).2
  have hagrees := h.linked.ld
  cases hstep with
  | enterWait hat ht | enterAdd hat ht =>
      obtain ⟨hless, htime⟩ := timer_pays h.timer ht ⟨rfl, rfl⟩ (by simp)
      refine work_ld hless htime hcpu
        (fun d _ => Timer.behind_step ht htime (by simp)) (y := 0) ?_ (Nat.le_refl 1)
      rw [hat] at hagrees
      have hbehind := hnot hagrees
      rw [← Timer.behind_step ht htime (by simp)] at hbehind
      simp [State.goLd, LdAt.work, hbehind]
  | nextSlotWait hat ht | nextSlotAdd hat ht =>
      obtain ⟨hless, htime⟩ := timer_pays h.timer ht ⟨rfl, rfl⟩ (by simp)
      refine work_ld hless htime hcpu
        (fun d hdc => Timer.behind_step ht htime (by simpa using Ne.symm hdc)) (y := 0) ?_
        (Nat.le_refl 1)
      rcases Timer.behind_check h.timer ht with ⟨hwork, hbehind⟩ | ⟨hwork, hbehind⟩
      · simp [State.goLd, LdAt.work, hat, hwork, hbehind]
      · simp [State.goLd, LdAt.work, hat, hwork, hbehind]
  | detach hat ht =>
      obtain ⟨hless, htime⟩ := timer_pays h.timer ht ⟨rfl, rfl⟩ (by simp)
      refine work_ld hless htime hcpu
        (fun d _ => Timer.behind_step ht htime (by simp)) (y := 0) ?_ (Nat.le_refl 1)
      simp [State.goLd, LdAt.work]
  | load hat | loaded hat | early hat | due hat | add hat | setDone hat =>
      apply work_ld (x := 0) (y := 1)
      · exact Nat.le_of_eq (Nat.zero_add _)
      · rfl
      · rfl
      · exact fun _ _ => rfl
      · simp [State.goLd, LdAt.work, hat]
      · exact Nat.le_refl 1

/-- The timer thread pays for itself, and `_time++` brings the work of all threads. -/
theorem work_timer (h : Sound cfg s) {b : Timer.Act (Device n)}
    {t : Timer.State (Device n)} (ht : Timer.step (devList n) s.timer b = some t)
    (hb : ∀ d, b ≠ .check d) :
    b.own + { s with timer := t }.work + slotWork n * s.timer.time ≤
      s.work + slotWork n * t.time + b.spurious := by
  have hlen : (devList n).length = n + 1 := by simp [devList]
  have hpaid := Timer.work_step nodup_devList h.timer ht
  rw [hlen] at hpaid
  rcases Timer.time_step ht with htime | ⟨-, htime⟩
  · have hbehind : ∀ d, t.behind d = s.timer.behind d := fun d =>
      Timer.behind_step ht htime (hb d)
    have hcpus : { s with timer := t }.cpuWork = s.cpuWork := by
      funext c
      simp only [State.cpuWork, hbehind]
    rw [htime] at hpaid
    simp only [State.work, hcpus, hbehind, htime]
    omega
  · have hcpus : ((List.finRange n).map { s with timer := t }.cpuWork).sum ≤
        ((List.finRange n).map s.cpuWork).sum + (List.finRange n).length * 5 :=
      Lts.sum_map_le_add fun c _ => CpuAt.work_le (s.cpu c) _ _
    have hld := s.ld.work_le (s.timer.behind none) (t.behind none)
    rw [List.length_finRange] at hcpus
    simp only [State.work, slotWork, htime, Nat.mul_add, Nat.mul_one] at hpaid ⊢
    omega

/-- Each step is paid for by the work of its slot. -/
theorem work_step (h : Sound cfg s) {a : Act n} (hstep : Step cfg s a s') :
    a.own + s'.work + slotWork n * s.timer.time ≤
      s.work + slotWork n * s'.timer.time + a.spurious := by
  cases a with
  | cpu c => exact (cpuStep_of_cpuRoutine hstep).work h
  | ld => exact (ldStep_of_ldRoutine hstep).work h
  | tick | wakeTimer | wake d | stop =>
      obtain ⟨t, ht, rfl⟩ := Option.map_eq_some_iff.mp hstep
      exact work_timer h ht (by simp)

/-! ## Every run -/

theorem work_boot : (boot : State n).work ≤ slotWork n := by
  have hlen : (devList n).length = n + 1 := by simp [devList]
  have htimer := Timer.work_start (devList n)
  have hcpus : ((List.finRange n).map (boot : State n).cpuWork).sum ≤
      ((List.finRange n).map fun _ => 0).sum + (List.finRange n).length * 5 :=
    Lts.sum_map_le_add fun c _ => by simp [State.cpuWork, boot, CpuAt.work]
  simp only [List.map_const', List.sum_replicate_nat, Nat.mul_zero, List.length_finRange]
    at hcpus
  rw [hlen] at htimer
  change (Timer.start : Timer.State (Device n)).work (devList n) +
    ((List.finRange n).map (boot : State n).cpuWork).sum + 3 ≤ slotWork n
  simp only [slotWork]
  omega

/-- The sections of a run are at most linear in the number of slots. -/
theorem sections_le {es : List (Act n)} (h : Lts.Run (Step cfg) boot es s) :
    Lts.total Act.own es ≤
      slotWork n * (s.timer.time + 1) + Lts.total Act.spurious es := by
  have hpaid := h.amortized State.work (fun t => slotWork n * t.timer.time) Act.own
    Act.spurious (fun _ _ hrun => Sound.of_run hrun) fun _ _ _ hJ hstep => work_step hJ hstep
  have hboot := work_boot (n := n)
  have hzero : (boot : State n).timer.time = 0 := rfl
  rw [hzero] at hpaid
  rw [Nat.mul_add, Nat.mul_one]
  omega

/-- The simulation makes progress: as long as some thread has not stopped, a thread can
execute a step of its own; and the number of these steps is at most linear in the number of
slots, apart from spurious wake-ups, so that no slot goes on for ever. -/
theorem simulation_progress (hlevels : cfg.Levels) {es : List (Act n)}
    (h : Lts.Run (Step cfg) boot es s) :
    ((∀ a : Act n, a.Own → step cfg s a = none) →
      (∀ c, s.cpu c = .stopped) ∧ s.ld = .finished ∧
        (s.timer.timer = .left ∨ s.timer.timer = .stopped)) ∧
    Lts.total Act.own es ≤
      slotWork n * (s.timer.time + 1) + Lts.total Act.spurious es :=
  ⟨all_stopped_of_stuck (Sound.of_run h) hlevels, sections_le h⟩

/-- One CPU and one process, up to the first `run`. -/
theorem simulation_progress_one_cpu :
    ∃ s : State 1,
      Lts.exec (step shortConfig) boot
        [.ld, .ld, .ld, .ld, .cpu 0, .cpu 0, .cpu 0, .cpu 0] = some s ∧
      ((∀ a : Act 1, a.Own → step shortConfig s a = none) →
        (∀ c, s.cpu c = .stopped) ∧ s.ld = .finished ∧
          (s.timer.timer = .left ∨ s.timer.timer = .stopped)) ∧
      8 ≤ slotWork 1 * (s.timer.time + 1) := by
  have hdef : (Lts.exec (step shortConfig) (boot : State 1)
      [.ld, .ld, .ld, .ld, .cpu 0, .cpu 0, .cpu 0, .cpu 0]).isSome = true := by
    decide +kernel
  obtain ⟨s, hs⟩ := Option.isSome_iff_exists.mp hdef
  exact ⟨s, hs, simulation_progress (by simp [Config.Levels, shortConfig, maxPrio])
    (Lts.exec_run hs)⟩

end Os
end Hdh
