import Hdh.Os.Routines

/-!
# Invariants of the simulator

What one step of a CPU or of the loader can do is said once, as a relation with
one constructor for each branch of its routine.  The timer and the scheduler are
embedded systems, whose invariants hold of every reachable state of the
simulator; the positions of the threads are linked with what the timer and the
scheduler know about them, and no process is lost between the loader, the ready
queues and the CPUs.

Main results:

- Theorem `timer_of_run` and `sched_of_run`: the invariants of the timer and of
  the scheduler hold in every reachable state.
- Theorem `linked_of_run`: the threads are where the timer thinks they are.
- Theorem `placed_of_run`: each added process is ready, held by a CPU, or has
  executed its whole program.
-/

namespace Hdh
namespace Os

open Sched

variable {n : Nat} {cfg : Config} {s s' : State n}

/-! ## The sections of the routines -/

/-- A section of `timer.c` and what follows it. -/
theorem onTimer_map_eq_some {a : Timer.Act (Device n)} {f : State n → State n}
    (h : (s.onTimer a).map f = some s') :
    ∃ t, Timer.step (devList n) s.timer a = some t ∧ s' = f { s with timer := t } := by
  obtain ⟨u, hu, rfl⟩ := Option.map_eq_some_iff.mp h
  obtain ⟨t, ht, rfl⟩ := Option.map_eq_some_iff.mp hu
  exact ⟨t, ht, rfl⟩

/-- A section of `sched.c` and what follows it. -/
theorem onSched_map_eq_some {a : DispatchAct (Fin n) Nat} {f : State n → State n}
    (h : (s.onSched cfg a).map f = some s') :
    ∃ d, Dispatch.step cfg.fields s.sched a = some d ∧ s' = f { s with sched := d } := by
  obtain ⟨u, hu, rfl⟩ := Option.map_eq_some_iff.mp h
  obtain ⟨d, hd, rfl⟩ := Option.map_eq_some_iff.mp hu
  exact ⟨d, hd, rfl⟩

/-- `get_proc` and what follows it. -/
theorem getProc_map_eq_some {c : Fin n} {f : State n → State n}
    (h : (s.getProc cfg c).map f = some s') :
    ∃ d, Dispatch.step cfg.fields s.sched (.getProc c) = some d ∧
      s' = f { s with sched := d, seen := Function.update s.seen c s.i } := by
  obtain ⟨u, hu, rfl⟩ := Option.map_eq_some_iff.mp h
  obtain ⟨d, hd, rfl⟩ := onSched_map_eq_some hu
  exact ⟨d, hd, rfl⟩

/-! ## The branches of the routines -/

/-- The branches of `cpu_routine`, each with its guard. -/
inductive CpuTurn (cfg : Config) (s : State n) (c : Fin n) : State n → Prop
  | idle : s.cpu c = .top → s.sched.hold c = none →
      CpuTurn cfg s c (s.goCpu c .getIdle)
  | finish {p : Nat} {d : Dispatch (Fin n) Nat} : s.cpu c = .top →
      s.sched.hold c = some p → s.pc p = cfg.codeSize p →
      Dispatch.step cfg.fields s.sched (.finish c) = some d →
      CpuTurn cfg s c ({ s with sched := d }.goCpu c .getFin)
  | expire {p : Nat} : s.cpu c = .top → s.sched.hold c = some p →
      s.pc p ≠ cfg.codeSize p → s.timeLeft c = 0 →
      CpuTurn cfg s c (s.goCpu c .put)
  | keep {p : Nat} : s.cpu c = .top → s.sched.hold c = some p →
      s.pc p ≠ cfg.codeSize p → s.timeLeft c ≠ 0 →
      CpuTurn cfg s c (s.goCpu c .recheck)
  | getIdle {d : Dispatch (Fin n) Nat} : s.cpu c = .getIdle →
      Dispatch.step cfg.fields s.sched (.getProc c) = some d →
      CpuTurn cfg s c ({ s with
        sched := d, seen := Function.update s.seen c s.i }.goCpu c
          (if d.hold c = none then .enter else .recheck))
  | getFin {d : Dispatch (Fin n) Nat} : s.cpu c = .getFin →
      Dispatch.step cfg.fields s.sched (.getProc c) = some d →
      CpuTurn cfg s c ({ s with
        sched := d, seen := Function.update s.seen c s.i,
        timeLeft := Function.update s.timeLeft c 0 }.goCpu c .recheck)
  | put {d : Dispatch (Fin n) Nat} : s.cpu c = .put →
      Dispatch.step cfg.fields s.sched (.putProc c) = some d →
      CpuTurn cfg s c ({ s with sched := d }.goCpu c .getPut)
  | getPut {d : Dispatch (Fin n) Nat} : s.cpu c = .getPut →
      Dispatch.step cfg.fields s.sched (.getProc c) = some d →
      CpuTurn cfg s c ({ s with
        sched := d, seen := Function.update s.seen c s.i }.goCpu c .recheck)
  | exit : s.cpu c = .recheck → s.sched.hold c = none → s.done = true →
      CpuTurn cfg s c (s.goCpu c .detach)
  | skip : s.cpu c = .recheck → s.sched.hold c = none → s.done = false →
      CpuTurn cfg s c (s.goCpu c .enter)
  | dispatch {p : Nat} : s.cpu c = .recheck → s.sched.hold c = some p →
      s.timeLeft c = 0 →
      CpuTurn cfg s c ({ s with
        timeLeft := Function.update s.timeLeft c cfg.timeSlot }.goCpu c .exec)
  | resume {p : Nat} : s.cpu c = .recheck → s.sched.hold c = some p →
      s.timeLeft c ≠ 0 →
      CpuTurn cfg s c (s.goCpu c .exec)
  | exec {p : Nat} : s.cpu c = .exec → s.sched.hold c = some p →
      CpuTurn cfg s c ({ s.run cfg p with
        timeLeft := Function.update (s.run cfg p).timeLeft c
          ((s.run cfg p).timeLeft c - 1) }.goCpu c .enter)
  | enter {t : Timer.State (Device n)} : s.cpu c = .enter →
      Timer.step (devList n) s.timer (.enter (some c)) = some t →
      CpuTurn cfg s c ({ s with timer := t }.goCpu c .inSlot)
  | nextSlot {t : Timer.State (Device n)} : s.cpu c = .inSlot →
      Timer.step (devList n) s.timer (.check (some c)) = some t →
      CpuTurn cfg s c ({ s with timer := t }.goCpu c
        (if t.dev (some c) = Timer.DevAt.working then .top else .inSlot))
  | detach {t : Timer.State (Device n)} : s.cpu c = .detach →
      Timer.step (devList n) s.timer (.detach (some c)) = some t →
      CpuTurn cfg s c ({ s with timer := t }.goCpu c .stopped)

/-- Every step of `cpu_routine` takes one of its branches. -/
theorem cpuTurn_of_cpuRoutine {c : Fin n} (h : cpuRoutine cfg s c = some s') :
    CpuTurn cfg s c s' := by
  unfold cpuRoutine at h
  split at h
  · rename_i hat
    split at h
    · rename_i hhold
      cases h
      exact .idle hat hhold
    · rename_i p hhold
      split_ifs at h with hpc hleft
      · obtain ⟨d, hd, rfl⟩ := onSched_map_eq_some h
        exact .finish hat hhold hpc hd
      · cases h
        exact .expire hat hhold hpc hleft
      · cases h
        exact .keep hat hhold hpc hleft
  · rename_i hat
    obtain ⟨d, hd, rfl⟩ := getProc_map_eq_some h
    exact .getIdle hat hd
  · rename_i hat
    obtain ⟨d, hd, rfl⟩ := getProc_map_eq_some h
    exact .getFin hat hd
  · rename_i hat
    obtain ⟨d, hd, rfl⟩ := onSched_map_eq_some h
    exact .put hat hd
  · rename_i hat
    obtain ⟨d, hd, rfl⟩ := getProc_map_eq_some h
    exact .getPut hat hd
  · rename_i hat
    split at h
    · rename_i hhold
      split_ifs at h with hdone <;> cases h
      · exact .exit hat hhold hdone
      · exact .skip hat hhold (Bool.not_eq_true _ ▸ hdone)
    · rename_i p hhold
      split_ifs at h with hleft <;> cases h
      · exact .dispatch hat hhold hleft
      · exact .resume hat hhold hleft
  · rename_i hat
    split at h
    · cases h
    · rename_i p hhold
      cases h
      exact .exec hat hhold
  · rename_i hat
    obtain ⟨t, ht, rfl⟩ := onTimer_map_eq_some h
    exact .enter hat ht
  · rename_i hat
    obtain ⟨t, ht, rfl⟩ := onTimer_map_eq_some h
    exact .nextSlot hat ht
  · rename_i hat
    obtain ⟨t, ht, rfl⟩ := onTimer_map_eq_some h
    exact .detach hat ht
  · cases h

/-- The steps of `cpu_routine`, branch by branch, without the times of the slices. -/
inductive CpuStep (cfg : Config) (s : State n) (c : Fin n) : State n → Prop
  | idle : s.cpu c = .top → s.sched.hold c = none →
      CpuStep cfg s c (s.goCpu c .getIdle)
  | finish {p : Nat} {d : Dispatch (Fin n) Nat} : s.cpu c = .top →
      s.sched.hold c = some p → s.pc p = cfg.codeSize p →
      Dispatch.step cfg.fields s.sched (.finish c) = some d →
      CpuStep cfg s c ({ s with sched := d }.goCpu c .getFin)
  | expire {p : Nat} : s.cpu c = .top → s.sched.hold c = some p →
      CpuStep cfg s c (s.goCpu c .put)
  | keep {p : Nat} : s.cpu c = .top → s.sched.hold c = some p →
      CpuStep cfg s c (s.goCpu c .recheck)
  | getIdle {d : Dispatch (Fin n) Nat} : s.cpu c = .getIdle →
      Dispatch.step cfg.fields s.sched (.getProc c) = some d →
      CpuStep cfg s c ({ s with
        sched := d, seen := Function.update s.seen c s.i }.goCpu c
          (if d.hold c = none then .enter else .recheck))
  | get {d : Dispatch (Fin n) Nat} (left : Fin n → Int) :
      s.cpu c = .getFin ∨ s.cpu c = .getPut →
      Dispatch.step cfg.fields s.sched (.getProc c) = some d →
      CpuStep cfg s c ({ s with
        sched := d, seen := Function.update s.seen c s.i,
        timeLeft := left }.goCpu c .recheck)
  | put {d : Dispatch (Fin n) Nat} : s.cpu c = .put →
      Dispatch.step cfg.fields s.sched (.putProc c) = some d →
      CpuStep cfg s c ({ s with sched := d }.goCpu c .getPut)
  | exit : s.cpu c = .recheck → s.sched.hold c = none → s.done = true →
      CpuStep cfg s c (s.goCpu c .detach)
  | skip : s.cpu c = .recheck → s.sched.hold c = none → s.done = false →
      CpuStep cfg s c (s.goCpu c .enter)
  | dispatch {p : Nat} (left : Fin n → Int) : s.cpu c = .recheck →
      s.sched.hold c = some p →
      CpuStep cfg s c ({ s with timeLeft := left }.goCpu c .exec)
  | exec {p : Nat} (left : Fin n → Int) : s.cpu c = .exec →
      s.sched.hold c = some p →
      CpuStep cfg s c ({ s.run cfg p with timeLeft := left }.goCpu c .enter)
  | enter {t : Timer.State (Device n)} : s.cpu c = .enter →
      Timer.step (devList n) s.timer (.enter (some c)) = some t →
      CpuStep cfg s c ({ s with timer := t }.goCpu c .inSlot)
  | nextSlot {t : Timer.State (Device n)} : s.cpu c = .inSlot →
      Timer.step (devList n) s.timer (.check (some c)) = some t →
      CpuStep cfg s c ({ s with timer := t }.goCpu c
        (if t.dev (some c) = Timer.DevAt.working then .top else .inSlot))
  | detach {t : Timer.State (Device n)} : s.cpu c = .detach →
      Timer.step (devList n) s.timer (.detach (some c)) = some t →
      CpuStep cfg s c ({ s with timer := t }.goCpu c .stopped)

/-- Each turn of `cpu_routine` is one of the branches. -/
theorem cpuStep_of_cpuRoutine {c : Fin n} (h : cpuRoutine cfg s c = some s') :
    CpuStep cfg s c s' := by
  cases cpuTurn_of_cpuRoutine h with
  | idle hat hhold => exact .idle hat hhold
  | finish hat hhold hpc hd => exact .finish hat hhold hpc hd
  | expire hat hhold _ _ => exact .expire hat hhold
  | keep hat hhold _ _ => exact .keep hat hhold
  | getIdle hat hd => exact .getIdle hat hd
  | getFin hat hd => exact .get _ (Or.inl hat) hd
  | put hat hd => exact .put hat hd
  | getPut hat hd => exact .get _ (Or.inr hat) hd
  | exit hat hhold hdone => exact .exit hat hhold hdone
  | skip hat hhold hdone => exact .skip hat hhold hdone
  | dispatch hat hhold _ => exact .dispatch _ hat hhold
  | resume hat hhold _ => exact .dispatch s.timeLeft hat hhold
  | exec hat hhold => exact .exec _ hat hhold
  | enter hat ht => exact .enter hat ht
  | nextSlot hat ht => exact .nextSlot hat ht
  | detach hat ht => exact .detach hat ht

/-- The steps of `ld_routine`, branch by branch. -/
inductive LdStep (cfg : Config) (s : State n) : State n → Prop
  | load : s.ld = .load → s.i < cfg.numProcesses → LdStep cfg s (s.goLd .wait)
  | loaded : s.ld = .load → cfg.numProcesses ≤ s.i → LdStep cfg s (s.goLd .setDone)
  | early : s.ld = .wait → LdStep cfg s (s.goLd .enterWait)
  | due : s.ld = .wait → LdStep cfg s (s.goLd .add)
  | enterWait {t : Timer.State (Device n)} : s.ld = .enterWait →
      Timer.step (devList n) s.timer (.enter none) = some t →
      LdStep cfg s ({ s with timer := t }.goLd .inSlotWait)
  | nextSlotWait {t : Timer.State (Device n)} : s.ld = .inSlotWait →
      Timer.step (devList n) s.timer (.check none) = some t →
      LdStep cfg s ({ s with timer := t }.goLd
        (if t.dev none = Timer.DevAt.working then .wait else .inSlotWait))
  | add {d : Dispatch (Fin n) Nat} : s.ld = .add →
      Dispatch.step cfg.fields s.sched (.addProc s.i) = some d →
      LdStep cfg s ({ s with sched := d, i := s.i + 1 }.goLd .enterAdd)
  | enterAdd {t : Timer.State (Device n)} : s.ld = .enterAdd →
      Timer.step (devList n) s.timer (.enter none) = some t →
      LdStep cfg s ({ s with timer := t }.goLd .inSlotAdd)
  | nextSlotAdd {t : Timer.State (Device n)} : s.ld = .inSlotAdd →
      Timer.step (devList n) s.timer (.check none) = some t →
      LdStep cfg s ({ s with timer := t }.goLd
        (if t.dev none = Timer.DevAt.working then .load else .inSlotAdd))
  | setDone : s.ld = .setDone →
      LdStep cfg s ({ s with done := true }.goLd .detach)
  | detach {t : Timer.State (Device n)} : s.ld = .detach →
      Timer.step (devList n) s.timer (.detach none) = some t →
      LdStep cfg s ({ s with timer := t }.goLd .finished)

/-- Each turn of `ld_routine` is one of the branches. -/
theorem ldStep_of_ldRoutine (h : ldRoutine cfg s = some s') : LdStep cfg s s' := by
  unfold ldRoutine at h
  split at h
  · rename_i hat
    split_ifs at h with hi <;> cases h
    · exact .load hat hi
    · exact .loaded hat (Nat.not_lt.mp hi)
  · rename_i hat
    split_ifs at h <;> cases h
    · exact .early hat
    · exact .due hat
  · rename_i hat
    obtain ⟨t, ht, rfl⟩ := onTimer_map_eq_some h
    exact .enterWait hat ht
  · rename_i hat
    obtain ⟨t, ht, rfl⟩ := onTimer_map_eq_some h
    exact .nextSlotWait hat ht
  · rename_i hat
    obtain ⟨d, hd, rfl⟩ := onSched_map_eq_some h
    exact .add hat hd
  · rename_i hat
    obtain ⟨t, ht, rfl⟩ := onTimer_map_eq_some h
    exact .enterAdd hat ht
  · rename_i hat
    obtain ⟨t, ht, rfl⟩ := onTimer_map_eq_some h
    exact .nextSlotAdd hat ht
  · rename_i hat
    cases h
    exact .setDone hat
  · rename_i hat
    obtain ⟨t, ht, rfl⟩ := onTimer_map_eq_some h
    exact .detach hat ht
  · cases h

/-- The steps of the simulator: a CPU, the loader, or the timer. -/
inductive OsStep (cfg : Config) (s : State n) : Act n → State n → Prop
  | cpu {c : Fin n} {s' : State n} :
      CpuStep cfg s c s' → OsStep cfg s (.cpu c) s'
  | ld {s' : State n} : LdStep cfg s s' → OsStep cfg s .ld s'
  | timer {a : Act n} {b : Timer.Act (Device n)} {t : Timer.State (Device n)} :
      (∀ d, b ≠ .enter d ∧ b ≠ .check d ∧ b ≠ .detach d) →
      Timer.step (devList n) s.timer b = some t →
      OsStep cfg s a { s with timer := t }

/-- Each step is one of the timer, of a CPU or of the loader. -/
theorem osStep_of_step {a : Act n} (h : Step cfg s a s') : OsStep cfg s a s' := by
  unfold Step step at h
  cases a with
  | cpu c => exact .cpu (cpuStep_of_cpuRoutine h)
  | ld => exact .ld (ldStep_of_ldRoutine h)
  | tick =>
      obtain ⟨t, ht, rfl⟩ := Option.map_eq_some_iff.mp h
      exact .timer (by simp) ht
  | wakeTimer =>
      obtain ⟨t, ht, rfl⟩ := Option.map_eq_some_iff.mp h
      exact .timer (by simp) ht
  | wake d =>
      obtain ⟨t, ht, rfl⟩ := Option.map_eq_some_iff.mp h
      exact .timer (by simp) ht
  | stop =>
      obtain ⟨t, ht, rfl⟩ := Option.map_eq_some_iff.mp h
      exact .timer (by simp) ht

/-- `run` leaves the scheduler alone. -/
@[simp]
theorem run_sched (p : Nat) : (s.run cfg p).sched = s.sched := by
  unfold State.run
  split_ifs <;> rfl

/-- It leaves the timer alone. -/
@[simp]
theorem run_timer (p : Nat) : (s.run cfg p).timer = s.timer := by
  unfold State.run
  split_ifs <;> rfl

/-! ## The embedded systems -/

/-- A step of the simulator is a step of the timer or leaves it alone. -/
theorem timer_step {a : Act n} (h : Step cfg s a s') :
    s'.timer = s.timer ∨ ∃ b, Timer.Step (devList n) s.timer b s'.timer := by
  cases osStep_of_step h with
  | cpu hcpu =>
      cases hcpu with
      | enter _ ht => exact Or.inr ⟨_, ht⟩
      | nextSlot _ ht => exact Or.inr ⟨_, ht⟩
      | detach _ ht => exact Or.inr ⟨_, ht⟩
      | exec => exact Or.inl (run_timer _)
      | _ => exact Or.inl rfl
  | ld hld =>
      cases hld with
      | enterWait _ ht => exact Or.inr ⟨_, ht⟩
      | nextSlotWait _ ht => exact Or.inr ⟨_, ht⟩
      | enterAdd _ ht => exact Or.inr ⟨_, ht⟩
      | nextSlotAdd _ ht => exact Or.inr ⟨_, ht⟩
      | detach _ ht => exact Or.inr ⟨_, ht⟩
      | _ => exact Or.inl rfl
  | timer _ ht => exact Or.inr ⟨_, ht⟩

/-- A step of the simulator is a step of the scheduler or leaves it alone. -/
theorem sched_step {a : Act n} (h : Step cfg s a s') :
    s'.sched = s.sched ∨ ∃ b, Dispatch.Step cfg.fields s.sched b s'.sched := by
  cases osStep_of_step h with
  | cpu hcpu =>
      cases hcpu with
      | finish _ _ _ hd => exact Or.inr ⟨_, hd⟩
      | getIdle _ hd => exact Or.inr ⟨_, hd⟩
      | get _ _ hd => exact Or.inr ⟨_, hd⟩
      | put _ hd => exact Or.inr ⟨_, hd⟩
      | exec => exact Or.inl (run_sched _)
      | _ => exact Or.inl rfl
  | ld hld =>
      cases hld with
      | add _ hd => exact Or.inr ⟨_, hd⟩
      | _ => exact Or.inl rfl
  | timer => exact Or.inl rfl

/-- No device is registered twice. -/
theorem nodup_devList : (devList n).Nodup := by
  rw [devList, List.nodup_cons]
  constructor
  · simp
  · apply List.Nodup.map (Option.some_injective _)
    exact List.nodup_reverse.mpr (List.nodup_finRange n)

/-- All devices are registered. -/
@[simp]
theorem mem_devList (d : Device n) : d ∈ devList n := by
  cases d <;> simp [devList]

/-- The timer of a simulation keeps its invariant. -/
theorem timer_of_run {es : List (Act n)} (h : Lts.Run (Step cfg) boot es s) :
    Timer.LockStep (devList n) s.timer := by
  have hreach : Lts.Reachable (Timer.Step (devList n)) Timer.start s.timer :=
    Lts.Run.simulate State.timer (fun _ _ _ hstep => timer_step hstep) h
  obtain ⟨bs, hrun⟩ := hreach
  exact Timer.LockStep.of_run nodup_devList hrun

/-- So does the scheduler. -/
theorem sched_of_run {es : List (Act n)} (h : Lts.Run (Step cfg) boot es s) :
    Dispatch.Exclusive s.sched := by
  have hreach : Lts.Reachable (Dispatch.Step cfg.fields) Dispatch.boot s.sched :=
    Lts.Run.simulate State.sched (fun _ _ _ hstep => sched_step hstep) h
  obtain ⟨bs, hrun⟩ := hreach
  exact Dispatch.exclusive_of_run hrun

/-! ## What a step leaves alone -/

/-- A step of a CPU leaves the loader and the other CPUs alone; it may wake up
other threads. -/
structure CpuFrame (s : State n) (c : Fin n) (s' : State n) : Prop where
  ld : s'.ld = s.ld
  i : s'.i = s.i
  done : s'.done = s.done
  cpu : ∀ d, d ≠ c → s'.cpu d = s.cpu d
  hold : ∀ d, d ≠ c → s'.sched.hold d = s.sched.hold d
  seen : ∀ d, d ≠ c → s'.seen d = s.seen d
  dev : ∀ e, e ≠ some c → (s.timer.dev e).Wakes (s'.timer.dev e)

/-- What a CPU leaves alone. -/
theorem CpuStep.frame {c : Fin n} (h : CpuStep cfg s c s') : CpuFrame s c s' := by
  have hupd : ∀ {α : Type} (g : Fin n → α) (b : α) (d : Fin n), d ≠ c →
      Function.update g c b d = g d := fun g b d hdc => Function.update_of_ne hdc _ _
  have hhold : ∀ {b : DispatchAct (Fin n) Nat} {d : Dispatch (Fin n) Nat},
      b = .getProc c ∨ b = .putProc c ∨ b = .finish c →
      Dispatch.step cfg.fields s.sched b = some d →
      ∀ e, e ≠ c → d.hold e = s.sched.hold e :=
    fun hb hd => (Dispatch.moves_of_step hd).hold_other hb
  have hdev : ∀ {b : Timer.Act (Device n)} {t : Timer.State (Device n)},
      b = .enter (some c) ∨ b = .check (some c) ∨ b = .detach (some c) →
      Timer.step (devList n) s.timer b = some t →
      ∀ e, e ≠ some c → (s.timer.dev e).Wakes (t.dev e) :=
    fun hb ht _ hec => Timer.dev_step_other hb ht hec
  cases h with
  | finish _ _ _ hd =>
      exact ⟨rfl, rfl, rfl, hupd _ _, hhold (Or.inr (Or.inr rfl)) hd, fun _ _ => rfl,
        fun _ _ => Or.inl rfl⟩
  | getIdle _ hd =>
      exact ⟨rfl, rfl, rfl, hupd _ _, hhold (Or.inl rfl) hd, hupd _ _,
        fun _ _ => Or.inl rfl⟩
  | get _ _ hd =>
      exact ⟨rfl, rfl, rfl, hupd _ _, hhold (Or.inl rfl) hd, hupd _ _,
        fun _ _ => Or.inl rfl⟩
  | put _ hd =>
      exact ⟨rfl, rfl, rfl, hupd _ _, hhold (Or.inr (Or.inl rfl)) hd, fun _ _ => rfl,
        fun _ _ => Or.inl rfl⟩
  | exec =>
      unfold State.run
      split_ifs
      · exact ⟨rfl, rfl, rfl, hupd _ _, fun _ _ => rfl, fun _ _ => rfl,
          fun _ _ => Or.inl rfl⟩
      · exact ⟨rfl, rfl, rfl, hupd _ _, fun _ _ => rfl, fun _ _ => rfl,
          fun _ _ => Or.inl rfl⟩
  | enter _ ht =>
      exact ⟨rfl, rfl, rfl, hupd _ _, fun _ _ => rfl, fun _ _ => rfl,
        hdev (Or.inl rfl) ht⟩
  | nextSlot _ ht =>
      exact ⟨rfl, rfl, rfl, hupd _ _, fun _ _ => rfl, fun _ _ => rfl,
        hdev (Or.inr (Or.inl rfl)) ht⟩
  | detach _ ht =>
      exact ⟨rfl, rfl, rfl, hupd _ _, fun _ _ => rfl, fun _ _ => rfl,
        hdev (Or.inr (Or.inr rfl)) ht⟩
  | _ =>
      exact ⟨rfl, rfl, rfl, hupd _ _, fun _ _ => rfl, fun _ _ => rfl,
        fun _ _ => Or.inl rfl⟩

/-- A step of the loader leaves the CPUs alone. -/
structure LdFrame (s s' : State n) : Prop where
  cpu : s'.cpu = s.cpu
  hold : s'.sched.hold = s.sched.hold
  seen : s'.seen = s.seen
  pc : s'.pc = s.pc
  done : s.done = true → s'.done = true
  dev : ∀ e, e ≠ none → (s.timer.dev e).Wakes (s'.timer.dev e)

/-- What the loader leaves alone. -/
theorem LdStep.frame (h : LdStep cfg s s') : LdFrame s s' := by
  have hdev : ∀ {b : Timer.Act (Device n)} {t : Timer.State (Device n)},
      b = .enter none ∨ b = .check none ∨ b = .detach none →
      Timer.step (devList n) s.timer b = some t →
      ∀ e, e ≠ none → (s.timer.dev e).Wakes (t.dev e) :=
    fun hb ht _ hec => Timer.dev_step_other hb ht hec
  cases h with
  | add _ hd =>
      refine ⟨rfl, ?_, rfl, rfl, id, fun _ _ => Or.inl rfl⟩
      cases Dispatch.moves_of_step hd with
      | added _ _ hhold => exact hhold
      | dropped _ _ _ hhold => exact hhold
  | enterWait _ ht => exact ⟨rfl, rfl, rfl, rfl, id, hdev (Or.inl rfl) ht⟩
  | nextSlotWait _ ht =>
      exact ⟨rfl, rfl, rfl, rfl, id, hdev (Or.inr (Or.inl rfl)) ht⟩
  | enterAdd _ ht => exact ⟨rfl, rfl, rfl, rfl, id, hdev (Or.inl rfl) ht⟩
  | nextSlotAdd _ ht =>
      exact ⟨rfl, rfl, rfl, rfl, id, hdev (Or.inr (Or.inl rfl)) ht⟩
  | detach _ ht => exact ⟨rfl, rfl, rfl, rfl, id, hdev (Or.inr (Or.inr rfl)) ht⟩
  | setDone => exact ⟨rfl, rfl, rfl, rfl, fun _ => rfl, fun _ _ => Or.inl rfl⟩
  | _ => exact ⟨rfl, rfl, rfl, rfl, id, fun _ _ => Or.inl rfl⟩

/-! ## The threads are where the timer thinks they are -/

/-- What the timer knows about a CPU at `a`. -/
def CpuAt.Agrees : CpuAt → Timer.DevAt → Prop
  | .inSlot, b => b = .entered ∨ b = .asleep
  | .stopped, b => b = .detached
  | _, b => b = .working

/-- What the timer knows about the loader at `a`. -/
def LdAt.Agrees : LdAt → Timer.DevAt → Prop
  | .inSlotWait, b => b = .entered ∨ b = .asleep
  | .inSlotAdd, b => b = .entered ∨ b = .asleep
  | .finished, b => b = .detached
  | _, b => b = .working

/-- How far `i` is when the loader is at `a`. -/
def LdAt.Counts : LdAt → Nat → Nat → Prop
  | .load, i, num => i ≤ num
  | .enterAdd, i, num => i ≤ num
  | .inSlotAdd, i, num => i ≤ num
  | .setDone, i, num => i = num
  | .detach, i, num => i = num
  | .finished, i, num => i = num
  | _, i, num => i < num

/-- A CPU agrees with its device when the timer wakes it. -/
theorem CpuAt.Agrees.wakes {a : CpuAt} {b b' : Timer.DevAt} (h : a.Agrees b)
    (hwakes : b.Wakes b') : a.Agrees b' := by
  rcases hwakes with rfl | ⟨rfl, rfl⟩
  · exact h
  · cases a <;> simp_all [CpuAt.Agrees]

/-- So does the loader. -/
theorem LdAt.Agrees.wakes {a : LdAt} {b b' : Timer.DevAt} (h : a.Agrees b)
    (hwakes : b.Wakes b') : a.Agrees b' := by
  rcases hwakes with rfl | ⟨rfl, rfl⟩
  · exact h
  · cases a <;> simp_all [LdAt.Agrees]

/-- The threads, the timer and the flag `done` are linked. -/
structure Linked (cfg : Config) (s : State n) : Prop where
  cpu : ∀ c, (s.cpu c).Agrees (s.timer.dev (some c))
  ld : s.ld.Agrees (s.timer.dev none)
  gone : ∀ c, s.cpu c = .detach ∨ s.cpu c = .stopped →
    s.sched.hold c = none ∧ s.done = true
  done_iff : s.done = true ↔ s.ld = .detach ∨ s.ld = .finished
  counts : s.ld.Counts s.i cfg.numProcesses

/-- The threads and their devices agree at the beginning. -/
theorem linked_boot : Linked cfg (boot : State n) := by
  constructor <;>
    simp [boot, Timer.start, CpuAt.Agrees, LdAt.Agrees, LdAt.Counts]

/-- The CPU that steps agrees with the timer again. -/
theorem CpuStep.agrees {c : Fin n} (h : CpuStep cfg s c s')
    (hc : (s.cpu c).Agrees (s.timer.dev (some c))) :
    (s'.cpu c).Agrees (s'.timer.dev (some c)) := by
  cases h with
  | getIdle hat =>
      rw [hat] at hc
      simp only [State.goCpu, Function.update_self]
      split_ifs <;> exact hc
  | get _ hat =>
      rcases hat with hat | hat <;> rw [hat] at hc <;>
        simpa [State.goCpu, CpuAt.Agrees] using hc
  | exec _ hat =>
      rw [hat] at hc
      simpa [State.goCpu, CpuAt.Agrees] using hc
  | enter _ ht => simp [State.goCpu, CpuAt.Agrees, Timer.dev_enter ht]
  | nextSlot _ ht =>
      simp only [State.goCpu, Function.update_self]
      have hdev := Timer.dev_check ht
      split_ifs with hback
      · exact hback
      · exact Or.inr (hdev.resolve_left hback)
  | detach _ ht => simp [State.goCpu, CpuAt.Agrees, Timer.dev_detach ht]
  | _ =>
      rename_i hat _
      simp_all [State.goCpu, CpuAt.Agrees]

/-- The loader agrees with the timer again, and with its counter. -/
theorem LdStep.agrees (h : LdStep cfg s s') (hI : Linked cfg s) :
    s'.ld.Agrees (s'.timer.dev none) ∧
      s'.ld.Counts s'.i cfg.numProcesses ∧
      (s'.done = true ↔ s'.ld = .detach ∨ s'.ld = .finished) := by
  obtain ⟨-, hld, -, hdone, hcount⟩ := hI
  cases h with
  | load hat hi =>
      rw [hat] at hld hdone
      exact ⟨hld, hi, by simpa [State.goLd] using hdone⟩
  | loaded hat hi =>
      rw [hat] at hld hdone hcount
      exact ⟨hld, Nat.le_antisymm hcount hi, by simpa [State.goLd] using hdone⟩
  | enterWait hat ht | enterAdd hat ht =>
      rw [hat] at hdone hcount
      exact ⟨Or.inl (Timer.dev_enter ht), hcount, by simpa [State.goLd] using hdone⟩
  | nextSlotWait hat ht | nextSlotAdd hat ht =>
      rw [hat] at hdone hcount
      have hdev := Timer.dev_check ht
      split_ifs with hback
      · exact ⟨hback, hcount, by simpa [State.goLd] using hdone⟩
      · exact ⟨Or.inr (hdev.resolve_left hback), hcount,
          by simpa [State.goLd] using hdone⟩
  | detach hat ht =>
      rw [hat] at hdone hcount
      exact ⟨Timer.dev_detach ht, hcount, by simpa [State.goLd] using hdone⟩
  | setDone hat =>
      rw [hat] at hld hcount
      exact ⟨hld, hcount, by simp [State.goLd]⟩
  | add hat _ =>
      rw [hat] at hld hdone hcount
      exact ⟨hld, hcount, by simpa [State.goLd] using hdone⟩
  | _ =>
      rename_i hat
      rw [hat] at hld hdone hcount
      exact ⟨hld, hcount, by simpa [State.goLd] using hdone⟩

/-- Only a CPU that has found `done` set detaches. -/
theorem CpuStep.gone {c : Fin n} (h : CpuStep cfg s c s')
    (hc : s.cpu c = .detach ∨ s.cpu c = .stopped →
      s.sched.hold c = none ∧ s.done = true)
    (hgone : s'.cpu c = .detach ∨ s'.cpu c = .stopped) :
    s'.sched.hold c = none ∧ s'.done = true := by
  cases h with
  | exit _ hhold hdone => exact ⟨hhold, hdone⟩
  | detach hat => exact hc (Or.inl hat)
  | getIdle =>
      simp only [State.goCpu, Function.update_self] at hgone
      split_ifs at hgone <;> simp at hgone
  | nextSlot =>
      simp only [State.goCpu, Function.update_self] at hgone
      split_ifs at hgone <;> simp at hgone
  | _ => simp [State.goCpu] at hgone

/-- Every step keeps the links. -/
theorem Linked.step {a : Act n} (hI : Linked cfg s) (hstep : Step cfg s a s') :
    Linked cfg s' := by
  cases osStep_of_step hstep with
  | cpu hcpu =>
      rename_i c
      have hframe := hcpu.frame
      refine ⟨?_, ?_, ?_, ?_, ?_⟩
      · intro d
        by_cases hdc : d = c
        · subst hdc
          exact hcpu.agrees (hI.cpu d)
        · rw [hframe.cpu d hdc]
          exact (hI.cpu d).wakes (hframe.dev (some d) (by simpa using hdc))
      · rw [hframe.ld]
        exact hI.ld.wakes (hframe.dev none (by simp))
      · intro d
        by_cases hdc : d = c
        · subst hdc
          exact hcpu.gone (hI.gone d)
        · rw [hframe.cpu d hdc, hframe.hold d hdc, hframe.done]
          exact hI.gone d
      · rw [hframe.done, hframe.ld]
        exact hI.done_iff
      · rw [hframe.ld, hframe.i]
        exact hI.counts
  | ld hld =>
      have hframe := hld.frame
      obtain ⟨hagrees, hcounts, hdone⟩ := hld.agrees hI
      refine ⟨?_, hagrees, ?_, hdone, hcounts⟩
      · intro d
        rw [hframe.cpu]
        exact (hI.cpu d).wakes (hframe.dev (some d) (by simp))
      · intro d
        rw [hframe.cpu, hframe.hold]
        intro hgone
        exact ⟨(hI.gone d hgone).1, hframe.done (hI.gone d hgone).2⟩
  | timer hown ht =>
      have hwakes : ∀ e, (s.timer.dev e).Wakes (_ : Timer.DevAt) := fun e =>
        (Timer.dev_step e ht).resolve_right
          (by simp [(hown e).1, (hown e).2.1, (hown e).2.2])
      exact ⟨fun c => (hI.cpu c).wakes (hwakes _), hI.ld.wakes (hwakes _), hI.gone,
        hI.done_iff, hI.counts⟩

/-- They agree in every reachable state. -/
theorem linked_of_run {es : List (Act n)} (h : Lts.Run (Step cfg) boot es s) :
    Linked cfg s :=
  h.invariant linked_boot fun _ _ _ hI hstep => hI.step hstep

/-! ## No process is lost -/

/-- Where an added process can be. -/
def Placed (cfg : Config) (s : State n) (p : Nat) : Prop :=
  p ∈ s.sched.mlq.ready ∨ (∃ c, s.sched.hold c = some p) ∨
    s.pc p = cfg.codeSize p

/-- The scheduler only knows added processes, and each of these is placed. -/
structure Processes (cfg : Config) (s : State n) : Prop where
  ready_lt : ∀ p ∈ s.sched.mlq.ready, p < s.i
  hold_lt : ∀ c p, s.sched.hold c = some p → p < s.i
  placed : ∀ p < s.i, Placed cfg s p

/-- There is no process at the beginning. -/
theorem processes_boot : Processes cfg (boot : State n) := by
  constructor <;> simp [boot, Dispatch.boot]

/-- A list of different numbers below `i` has at most `i` of them. -/
theorem length_le_of_lt {l : List Nat} (hnodup : l.Nodup) {i : Nat}
    (hlt : ∀ p ∈ l, p < i) : l.length ≤ i := by
  have hsub : l.Subperm (List.range i) := by
    apply List.subperm_of_subset hnodup
    intro p hp
    exact List.mem_range.mpr (hlt p hp)
  simpa using hsub.length_le

/-- The places of the processes when `c` exchanges what it holds. -/
theorem Placed.of_hold {c : Fin n} {p : Nat} (h : Placed cfg s p)
    (hpc : s'.pc = s.pc)
    (hready : p ∈ s.sched.mlq.ready → Placed cfg s' p)
    (hown : s.sched.hold c = some p → Placed cfg s' p)
    (hother : ∀ d, d ≠ c → s'.sched.hold d = s.sched.hold d) :
    Placed cfg s' p := by
  rcases h with hr | ⟨d, hd⟩ | hfin
  · exact hready hr
  · by_cases hdc : d = c
    · exact hown (hdc ▸ hd)
    · exact Or.inr (Or.inl ⟨d, (hother d hdc).trans hd⟩)
  · exact Or.inr (Or.inr (by rw [hpc]; exact hfin))

/-- After a `get_proc`. -/
theorem Processes.getProc {c : Fin n} (hI : Processes cfg s)
    {d : Dispatch (Fin n) Nat}
    (hd : Dispatch.step cfg.fields s.sched (.getProc c) = some d)
    (hsched : s'.sched = d) (hi : s'.i = s.i) (hpc : s'.pc = s.pc) :
    Processes cfg s' := by
  subst hsched
  have hmoves := Dispatch.moves_of_step hd
  have hother := hmoves.hold_other (Or.inl rfl)
  cases hmoves with
  | idle hnone hnil hnil' hhold =>
      constructor
      · simp [hnil']
      · rw [hhold, hi]
        exact hI.hold_lt
      · intro q hq
        refine (hI.placed q (hi ▸ hq)).of_hold hpc ?_ ?_ hother
        · simp [hnil]
        · simp [hnone]
  | @got _ p hnone hready hhold =>
      have hmem : ∀ q, q ∈ s.sched.mlq.ready ↔ q = p ∨ q ∈ s'.sched.mlq.ready := by
        intro q
        rw [hready.mem_iff, List.mem_cons]
      have hgot : s'.sched.hold c = some p := by
        rw [hhold, Function.update_self]
      constructor
      · intro q hq
        rw [hi]
        exact hI.ready_lt q ((hmem q).mpr (Or.inr hq))
      · intro e q he
        rw [hhold] at he
        rw [hi]
        rcases Dispatch.hold_of_take he with ⟨-, rfl⟩ | he
        · exact hI.ready_lt q ((hmem q).mpr (Or.inl rfl))
        · exact hI.hold_lt e q he
      · intro q hq
        refine (hI.placed q (hi ▸ hq)).of_hold hpc ?_ ?_ hother
        · intro hr
          rcases (hmem q).mp hr with rfl | hr
          · exact Or.inr (Or.inl ⟨c, hgot⟩)
          · exact Or.inl hr
        · simp [hnone]

/-- After a CPU has freed a process that has executed its whole program. -/
theorem Processes.finish {c : Fin n} {p : Nat} (hI : Processes cfg s)
    (hheld : s.sched.hold c = some p) (hfin : s.pc p = cfg.codeSize p)
    {d : Dispatch (Fin n) Nat}
    (hd : Dispatch.step cfg.fields s.sched (.finish c) = some d)
    (hsched : s'.sched = d) (hi : s'.i = s.i) (hpc : s'.pc = s.pc) :
    Processes cfg s' := by
  subst hsched
  have hmoves := Dispatch.moves_of_step hd
  have hother := hmoves.hold_other (Or.inr (Or.inr rfl))
  cases hmoves with
  | finished _ hready hhold =>
      constructor
      · rw [hready, hi]
        exact hI.ready_lt
      · intro e q he
        rw [hhold] at he
        rw [hi]
        exact hI.hold_lt e q (Dispatch.hold_of_release he).2
      · intro q hq
        refine (hI.placed q (hi ▸ hq)).of_hold hpc ?_ ?_ hother
        · exact fun hr => Or.inl (hready ▸ hr)
        · intro hq
          obtain rfl : p = q := Option.some.inj (hheld.symm.trans hq)
          exact Or.inr (Or.inr (by rw [hpc]; exact hfin))

/-- After a `put_proc`: the level cannot be full, since the process itself is not in
it. -/
theorem Processes.putProc {c : Fin n} (hI : Processes cfg s)
    (hX : Dispatch.Exclusive s.sched) (hmax : s.i ≤ maxQueueSize)
    {d : Dispatch (Fin n) Nat}
    (hd : Dispatch.step cfg.fields s.sched (.putProc c) = some d)
    (hsched : s'.sched = d) (hi : s'.i = s.i) (hpc : s'.pc = s.pc) :
    Processes cfg s' := by
  subst hsched
  have hmoves := Dispatch.moves_of_step hd
  have hother := hmoves.hold_other (Or.inr (Or.inl rfl))
  cases hmoves with
  | @returned _ p hheld hready hhold =>
      have hmem : ∀ q, q ∈ s'.sched.mlq.ready ↔ q = p ∨ q ∈ s.sched.mlq.ready := by
        intro q
        rw [hready.mem_iff, List.mem_cons]
      constructor
      · intro q hq
        rw [hi]
        rcases (hmem q).mp hq with rfl | hq
        · exact hI.hold_lt c q hheld
        · exact hI.ready_lt q hq
      · intro e q he
        rw [hhold] at he
        rw [hi]
        exact hI.hold_lt e q (Dispatch.hold_of_release he).2
      · intro q hq
        refine (hI.placed q (hi ▸ hq)).of_hold hpc ?_ ?_ hother
        · exact fun hr => Or.inl ((hmem q).mpr (Or.inr hr))
        · intro hq
          obtain rfl : p = q := Option.some.inj (hheld.symm.trans hq)
          exact Or.inl ((hmem p).mpr (Or.inl rfl))
  | @lost _ p hheld _ hfull =>
      have hlen : (p :: s.sched.mlq.ready).length ≤ s.i := by
        apply length_le_of_lt
        · exact List.nodup_cons.mpr ⟨hX.hold_not_ready c p hheld, hX.ready_nodup⟩
        · intro q hq
          rcases List.mem_cons.mp hq with rfl | hq
          · exact hI.hold_lt c q hheld
          · exact hI.ready_lt q hq
      simp only [List.length_cons] at hlen
      omega

/-- After an instruction of a process that a CPU holds. -/
theorem Processes.run {c : Fin n} {p : Nat} (hI : Processes cfg s)
    (hheld : s.sched.hold c = some p) : Processes cfg (s.run cfg p) := by
  unfold State.run
  split_ifs with hpc
  · exact hI
  · refine ⟨hI.ready_lt, hI.hold_lt, ?_⟩
    intro q hq
    by_cases hqp : q = p
    · subst hqp
      exact Or.inr (Or.inl ⟨c, hheld⟩)
    · rcases hI.placed q hq with hr | hd | hfin
      · exact Or.inl hr
      · exact Or.inr (Or.inl hd)
      · exact Or.inr (Or.inr ((Function.update_of_ne hqp _ _).trans hfin))

/-- A CPU keeps the processes in their places. -/
theorem Processes.cpuStep {c : Fin n} (hI : Processes cfg s)
    (hX : Dispatch.Exclusive s.sched) (hmax : s.i ≤ maxQueueSize)
    (h : CpuStep cfg s c s') : Processes cfg s' := by
  cases h with
  | getIdle _ hd => exact hI.getProc hd rfl rfl rfl
  | get _ _ hd => exact hI.getProc hd rfl rfl rfl
  | finish _ hheld hpc hd => exact hI.finish hheld hpc hd rfl rfl rfl
  | put _ hd => exact hI.putProc hX hmax hd rfl rfl rfl
  | exec _ _ hheld =>
      have hrun := hI.run hheld
      exact ⟨hrun.ready_lt, hrun.hold_lt, hrun.placed⟩
  | _ => exact ⟨hI.ready_lt, hI.hold_lt, hI.placed⟩

/-- The loader gives a place to the process that it adds. -/
theorem Processes.ldStep (hI : Processes cfg s) (hX : Dispatch.Exclusive s.sched)
    (hmax : s.ld = .add → s.i < maxQueueSize) (h : LdStep cfg s s') :
    Processes cfg s' := by
  cases h with
  | @add d hat hd =>
      cases Dispatch.moves_of_step hd with
      | added _ hready hhold =>
          have hmem : ∀ q, q ∈ d.mlq.ready ↔ q = s.i ∨ q ∈ s.sched.mlq.ready := by
            intro q
            rw [hready.mem_iff, List.mem_cons]
          constructor
          · intro q hq
            simp only [State.goLd]
            rcases (hmem q).mp hq with rfl | hq
            · omega
            · have := hI.ready_lt q hq
              omega
          · intro c q hc
            simp only [State.goLd, hhold] at hc ⊢
            have := hI.hold_lt c q hc
            omega
          · intro q hq
            simp only [State.goLd] at hq
            by_cases hqi : q = s.i
            · exact Or.inl ((hmem q).mpr (Or.inl hqi))
            · rcases hI.placed q (by omega) with hr | ⟨c, hc⟩ | hfin
              · exact Or.inl ((hmem q).mpr (Or.inr hr))
              · exact Or.inr (Or.inl ⟨c, by simpa only [State.goLd, hhold] using hc⟩)
              · exact Or.inr (Or.inr hfin)
      | dropped _ _ hfull =>
          -- the level cannot be full: fewer processes have been added
          have hlen := length_le_of_lt hX.ready_nodup hI.ready_lt
          have := hmax hat
          omega
  | _ => exact ⟨hI.ready_lt, hI.hold_lt, hI.placed⟩

/-- The loader has not loaded more processes than there are. -/
theorem LdAt.Counts.le {a : LdAt} {i num : Nat} (h : a.Counts i num) : i ≤ num := by
  cases a <;> simp only [LdAt.Counts] at h <;> omega

/-- With at most `MAX_QUEUE_SIZE` processes, each one has its place in every reachable state.
-/
theorem placed_of_run (hnum : cfg.numProcesses ≤ maxQueueSize) {es : List (Act n)}
    (h : Lts.Run (Step cfg) boot es s) : Processes cfg s := by
  apply h.invariant_of (J := fun t => Linked cfg t ∧ Dispatch.Exclusive t.sched)
  · intro es t hrun
    exact ⟨linked_of_run hrun, sched_of_run hrun⟩
  · exact processes_boot
  · rintro t a u ⟨hL, hX⟩ hP hstep
    cases osStep_of_step hstep with
    | cpu hcpu => exact hP.cpuStep hX (hL.counts.le.trans hnum) hcpu
    | ld hld =>
        refine hP.ldStep hX ?_ hld
        intro hat
        have hlt := hL.counts
        rw [hat] at hlt
        exact Nat.lt_of_lt_of_le hlt hnum
    | timer => exact ⟨hP.ready_lt, hP.hold_lt, hP.placed⟩

end Os
end Hdh
