import Hdh.Os.Invariant

/-!
# CPUs without a process

A CPU that begins an iteration without a process asks for one and, when there is
none, goes through `next_slot` and begins again: the `continue` of that branch
passes over the recheck of `done`.  A CPU can therefore only leave its loop in an
iteration that it began with a process.

Main results:

- Theorem `withoutProcess_step`: within an iteration that began without a process
  a CPU does not come to `detach_event`.
- Theorem `Drained.step`: once `done` is set and no process is ready or held, this
  stays so.
- Theorem `idle_cpu_never_stops`: a CPU that begins an iteration without a
  process after all work is done never leaves its loop.
- Theorem `not_idle_cpu_stops`: the run `lastProcess` comes to such a state.
-/

namespace Hdh
namespace Os

open Sched

variable {n : Nat} {cfg : Config} {s s' : State n}

/-- A CPU begins an iteration without a process, `done` is set and every ready
queue is empty. -/
structure IdleAtEnd (s : State n) (c : Fin n) : Prop where
  top : s.cpu c = .top
  hold : s.sched.hold c = none
  done : s.done = true
  ready : s.sched.mlq.ready = []

/-- The steps up to the end of the current iteration of `c`. -/
def IterationStep (cfg : Config) (c : Fin n) (s : State n) (a : Act n)
    (s' : State n) : Prop :=
  Step cfg s a s' ∧ ¬ (s.cpu c = .inSlot ∧ s'.cpu c = .top)

/-- The CPU can leave its loop in the current iteration. -/
def LeavesLoop (cfg : Config) (s : State n) (c : Fin n) : Prop :=
  ∃ es t, Lts.Run (IterationStep cfg c) s es t ∧
    (t.cpu c = .detach ∨ t.cpu c = .stopped)

/-! ## One iteration -/

/-- The positions of an iteration that began without a process. -/
def WithoutProcess (s : State n) (c : Fin n) : Prop :=
  match s.cpu c with
  | .top => s.sched.hold c = none
  | .getIdle => True
  | .recheck => s.sched.hold c ≠ none
  | .exec => True
  | .enter => True
  | .inSlot => True
  | _ => False

/-- A CPU without a process stays without one up to the next slot. -/
theorem withoutProcess_cpuStep {c : Fin n} (h : WithoutProcess s c)
    (hstep : CpuStep cfg s c s')
    (hsame : ¬ (s.cpu c = .inSlot ∧ s'.cpu c = .top)) : WithoutProcess s' c := by
  unfold WithoutProcess at h
  cases hstep with
  | idle => simp [WithoutProcess, State.goCpu]
  | finish hat hhold => simp [hat, hhold] at h
  | expire hat hhold => simp [hat, hhold] at h
  | keep hat hhold => simp [hat, hhold] at h
  | getIdle =>
      simp only [WithoutProcess, State.goCpu, Function.update_self]
      split_ifs with hnone
      · trivial
      · exact hnone
  | get _ hat => rcases hat with hat | hat <;> simp [hat] at h
  | put hat => simp [hat] at h
  | exit hat hhold => simp [hat, hhold] at h
  | skip hat hhold => simp [hat, hhold] at h
  | dispatch => simp [WithoutProcess, State.goCpu]
  | exec => simp [WithoutProcess, State.goCpu]
  | enter => simp [WithoutProcess, State.goCpu]
  | nextSlot hat =>
      simp only [State.goCpu, Function.update_self] at hsame
      simp only [WithoutProcess, State.goCpu, Function.update_self]
      split_ifs at hsame ⊢
      · exact absurd ⟨hat, rfl⟩ hsame
      · trivial
  | detach hat => simp [hat] at h

/-- Up to its end, an iteration that began without a process stays in these
positions, whatever the other threads do. -/
theorem withoutProcess_step {c : Fin n} (h : WithoutProcess s c) {a : Act n}
    (hstep : IterationStep cfg c s a s') : WithoutProcess s' c := by
  cases osStep_of_step hstep.1 with
  | cpu hcpu =>
      rename_i d
      by_cases hcd : c = d
      · subst hcd
        exact withoutProcess_cpuStep h hcpu hstep.2
      · unfold WithoutProcess at h ⊢
        rwa [hcpu.frame.cpu c hcd, hcpu.frame.hold c hcd]
  | ld hld =>
      unfold WithoutProcess at h ⊢
      rwa [hld.frame.cpu, hld.frame.hold]
  | timer => exact h

/-- At the top of its loop, a CPU without a process does not leave it. -/
theorem not_leavesLoop {c : Fin n} (htop : s.cpu c = .top)
    (hhold : s.sched.hold c = none) : ¬ LeavesLoop cfg s c := by
  rintro ⟨es, t, hrun, hgone⟩
  have hstart : WithoutProcess s c := by
    simp only [WithoutProcess, htop, hhold]
  have hend : WithoutProcess t c :=
    hrun.invariant (I := fun t => WithoutProcess t c) hstart
      fun _ _ _ h hstep => withoutProcess_step h hstep
  rcases hgone with hgone | hgone <;> simp [WithoutProcess, hgone] at hend

/-! ## After the last process -/

/-- All processes have been loaded, and none is ready or held. -/
structure Drained (s : State n) : Prop where
  ld : s.ld = .detach ∨ s.ld = .finished
  ready : s.sched.mlq.ready = []
  hold : ∀ c, s.sched.hold c = none

/-- No process can arrive any more. -/
theorem Drained.step (h : Drained s) {a : Act n} (hstep : Step cfg s a s') :
    Drained s' := by
  cases osStep_of_step hstep with
  | cpu hcpu =>
      rename_i c
      have hget : ∀ {d : Dispatch (Fin n) Nat},
          Dispatch.step cfg.fields s.sched (.getProc c) = some d →
          d.mlq.ready = [] ∧ ∀ e, d.hold e = none := by
        intro d hd
        cases Dispatch.moves_of_step hd with
        | idle _ _ hnil hhold => exact ⟨hnil, fun e => by rw [hhold, h.hold]⟩
        | got _ hready =>
            rw [h.ready] at hready
            simp at hready
      cases hcpu with
      | finish _ hhold =>
          rw [h.hold] at hhold
          cases hhold
      | getIdle _ hd => exact ⟨h.ld, (hget hd).1, (hget hd).2⟩
      | get _ _ hd => exact ⟨h.ld, (hget hd).1, (hget hd).2⟩
      | put _ hd =>
          obtain ⟨p, hhold⟩ := Dispatch.hold_of_putProc hd
          rw [h.hold] at hhold
          cases hhold
      | exec _ _ hhold =>
          rw [h.hold] at hhold
          cases hhold
      | _ => exact ⟨h.ld, h.ready, h.hold⟩
  | ld hld =>
      have hat := h.ld
      cases hld with
      | detach => exact ⟨Or.inr rfl, h.ready, h.hold⟩
      | setDone => exact ⟨Or.inl rfl, h.ready, h.hold⟩
      | add hadd => simp [hadd] at hat
      | enterWait henter => simp [henter] at hat
      | nextSlotWait hslot => simp [hslot] at hat
      | enterAdd henter => simp [henter] at hat
      | nextSlotAdd hslot => simp [hslot] at hat
      | load hload => simp [hload] at hat
      | loaded hload => simp [hload] at hat
      | early hwait => simp [hwait] at hat
      | due hwait => simp [hwait] at hat
  | timer => exact ⟨h.ld, h.ready, h.hold⟩

/-- A CPU that idles when everything is drained idles for ever. -/
theorem idle_of_run {c : Fin n} (hdrained : Drained s) (htop : s.cpu c = .top)
    {es : List (Act n)} {t : State n} (h : Lts.Run (Step cfg) s es t) :
    Drained t ∧ WithoutProcess t c := by
  apply h.invariant (I := fun t => Drained t ∧ WithoutProcess t c)
  · refine ⟨hdrained, ?_⟩
    simp only [WithoutProcess, htop, hdrained.hold]
  · rintro t a u ⟨hD, hW⟩ hstep
    refine ⟨hD.step hstep, ?_⟩
    by_cases hend : t.cpu c = .inSlot ∧ u.cpu c = .top
    · simp only [WithoutProcess, hend.2, (hD.step hstep).hold]
    · exact withoutProcess_step hW ⟨hstep, hend⟩

/-- In every reachable state, a CPU that begins an iteration without a process,
with `done` set and every ready queue empty, does not leave its loop in that
iteration, whatever the other threads do.  If moreover no CPU holds a process,
so that none can arrive any more, it never leaves its loop. -/
theorem idle_cpu_never_stops {es : List (Act n)}
    (h : Lts.Run (Step cfg) boot es s) {c : Fin n} (hidle : IdleAtEnd s c) :
    ¬ LeavesLoop cfg s c ∧
      ((∀ d, s.sched.hold d = none) → ∀ es t, Lts.Run (Step cfg) s es t →
        t.cpu c ≠ .detach ∧ t.cpu c ≠ .stopped) := by
  refine ⟨not_leavesLoop hidle.top hidle.hold, ?_⟩
  intro hnone es t hrun
  have hld := (linked_of_run h).done_iff.mp hidle.done
  obtain ⟨-, hW⟩ := idle_of_run ⟨hld, hidle.ready, hnone⟩ hidle.top hrun
  constructor
  · intro hat
    simp [WithoutProcess, hat] at hW
  · intro hat
    simp [WithoutProcess, hat] at hW

/-- One process on two CPUs: when the process has finished, the second CPU is at
the head of its loop. -/
def lastProcess : List (Act 2) :=
  [.ld, .ld, .ld, .ld, .ld, .cpu 0, .cpu 0, .cpu 0, .cpu 0, .cpu 0, .cpu 0,
    .cpu 1, .cpu 1, .cpu 1, .cpu 1, .tick, .tick, .tick, .tick, .tick, .tick,
    .ld, .ld, .ld, .ld, .tick, .cpu 1, .tick, .cpu 0, .cpu 0, .cpu 0, .cpu 0,
    .cpu 0]

/-- The configuration: a time slot of 2, and one process with one instruction. -/
def lastConfig : Config where
  timeSlot := 2
  numProcesses := 1
  startTime := fun _ => 0
  prio := fun _ => 0
  priority := fun _ => 0
  codeSize := fun _ => 1

theorem exec_lastProcess :
    ∃ s, Lts.exec (step lastConfig) boot lastProcess = some s ∧
      s.cpu 0 = .stopped ∧ IdleAtEnd s 1 ∧ ∀ d, s.sched.hold d = none := by
  have hend : (Lts.exec (step lastConfig) boot lastProcess).any (fun s =>
      decide (s.cpu 0 = .stopped) && decide (s.cpu 1 = .top) && s.done &&
        s.sched.mlq.ready.isEmpty && decide (∀ d, s.sched.hold d = none)) = true := by
    decide +kernel
  obtain ⟨s, hs, hat⟩ := (Option.any_eq_true _ _).mp hend
  simp only [Bool.and_eq_true, decide_eq_true_eq, List.isEmpty_iff] at hat
  obtain ⟨⟨⟨⟨hstopped, htop⟩, hdone⟩, hready⟩, hhold⟩ := hat
  exact ⟨s, hs, hstopped, ⟨htop, hhold 1, hdone, hready⟩, hhold⟩

/-- The second CPU of `lastProcess` never stops, although the first one has. -/
theorem idle_cpu_never_stops_two_cpus :
    ∃ s, Lts.exec (step lastConfig) boot lastProcess = some s ∧
      s.cpu 0 = .stopped ∧ ∀ es t, Lts.Run (Step lastConfig) s es t →
        t.cpu 1 ≠ .detach ∧ t.cpu 1 ≠ .stopped := by
  obtain ⟨s, hs, hstopped, hidle, hhold⟩ := exec_lastProcess
  exact ⟨s, hs, hstopped,
    (idle_cpu_never_stops (Lts.exec_run hs) hidle).2 hhold⟩

/-- It is not so that an idle CPU stops once there is nothing left to do. -/
theorem not_idle_cpu_stops :
    ¬ ∀ (n : Nat) (cfg : Config) (es : List (Act n)) (s : State n) (c : Fin n),
      Lts.Run (Step cfg) boot es s → IdleAtEnd s c → LeavesLoop cfg s c := by
  intro hclaim
  obtain ⟨s, hs, -, hidle, -⟩ := exec_lastProcess
  exact not_leavesLoop hidle.top hidle.hold
    (hclaim 2 lastConfig lastProcess s 1 (Lts.exec_run hs) hidle)

end Os
end Hdh
