import Hdh.Os.Progress

/-!
# The speed of the simulation

A slot of the timer is the time of one instruction.  The CPU that has called `run` ends its
slot in `next_slot` and lets go of its process in a later slot only, so that neither this CPU
nor another one can call `run` on the process again before `_time` advances.  The invariant is
once more an account: `_time`, and one more for a CPU that has executed its instruction
of the slot, grows by one with each instruction.

Main results:

- Theorem `ran_step` and `ranFor_step`: the account of a CPU and of a process.
- Theorem `speed_limit`: no CPU and no process is faster than one instruction in a slot, and no
  process has executed an instruction before its start time.
-/

namespace Hdh
namespace Os

open Sched

variable {n : Nat} {cfg : Config} {s s' : State n}

/-! ## The account of a CPU -/

/-- The CPU is behind its instruction. -/
def CpuAt.ended : CpuAt → Bool
  | .enter => true
  | .inSlot => true
  | _ => false

/-- 1 for a CPU that has done its work in the current slot. -/
def State.ran (s : State n) (c : Fin n) : Nat :=
  if (s.cpu c).ended = true ∧ s.timer.behind (some c) = false then 1 else 0

/-- The CPU calls `run`. -/
def SliceEvent.calledBy (c : Fin n) : Option (SliceEvent n) → Bool
  | some (.call d _) => decide (d = c)
  | _ => false

/-- A call of `run` by a CPU. -/
theorem calledBy_iff {c : Fin n} {e : Option (SliceEvent n)} :
    SliceEvent.calledBy c e = true ↔ ∃ p, e = some (.call c p) := by
  cases e with
  | none => simp [SliceEvent.calledBy]
  | some ev => cases ev <;> simp [SliceEvent.calledBy]

/-- A call of `run` on a process. -/
theorem calls_iff {p : Nat} {e : Option (SliceEvent n)} :
    SliceEvent.calls p e = true ↔ ∃ c, e = some (.call c p) := by
  cases e with
  | none => simp [SliceEvent.calls]
  | some ev => cases ev <;> simp [SliceEvent.calls]

/-- A CPU has done its work once in a slot. -/
theorem ran_le_one (s : State n) (c : Fin n) : s.ran c ≤ 1 := by
  unfold State.ran
  split_ifs <;> omega

/-- A CPU that has not come to `next_slot` has not done it. -/
theorem ran_of_not_ended {c : Fin n} (h : (s.cpu c).ended = false) : s.ran c = 0 := by
  simp [State.ran, h]

/-- A CPU that has done it has come there. -/
theorem ended_of_ran {c : Fin n} (h : s.ran c = 1) : (s.cpu c).ended = true := by
  by_contra hnot
  rw [ran_of_not_ended (Bool.not_eq_true _ ▸ hnot)] at h
  cases h

/-- `_time` never goes back. -/
theorem time_le {a : Act n} (hstep : Step cfg s a s') : s.timer.time ≤ s'.timer.time := by
  rcases timer_step hstep with hsame | ⟨b, hb⟩
  · rw [hsame]
  · rcases Timer.time_step hb with htime | ⟨-, htime⟩ <;> omega

/-- Another thread does not put a device behind, unless it advances `_time`. -/
theorem behind_other {d : Device n} {a : Act n} (ha : a ≠ d.elim .ld .cpu)
    (hstep : Step cfg s a s') (htime : s'.timer.time = s.timer.time) :
    s'.timer.behind d = s.timer.behind d := by
  have hb : ∀ {b : Timer.Act (Device n)},
      Timer.Step (devList n) s.timer b s'.timer → b ≠ .check d →
      s'.timer.behind d = s.timer.behind d :=
    fun hb hne => Timer.behind_step hb htime hne
  cases osStep_of_step hstep with
  | @cpu c _ hcpu =>
      have hdc : some c ≠ d := by
        rintro rfl
        exact ha rfl
      cases hcpu with
      | enter _ ht | detach _ ht => exact hb ht (by simp)
      | nextSlot _ ht => exact hb ht (by simpa using hdc)
      | exec => simp [State.goCpu]
      | _ => rfl
  | ld hld =>
      have hd : none ≠ d := by
        rintro rfl
        exact ha rfl
      cases hld with
      | enterWait _ ht | enterAdd _ ht | detach _ ht => exact hb ht (by simp)
      | nextSlotWait _ ht | nextSlotAdd _ ht => exact hb ht (by simpa using hd)
      | _ => rfl
  | timer hown ht => exact hb ht (hown d).2.1

/-- A step of a CPU pays for its call of `run`. -/
theorem ran_cpuStep (h : Sound cfg s) {c : Fin n} (hstep : CpuStep cfg s c s') :
    (if s.cpu c = .exec then 1 else 0) + s.timer.time + s.ran c ≤
      s'.timer.time + s'.ran c := by
  have hpass : (s.cpu c).ended = false → s.cpu c ≠ .exec → s'.timer.time = s.timer.time →
      (if s.cpu c = .exec then 1 else 0) + s.timer.time + s.ran c ≤
        s'.timer.time + s'.ran c := by
    intro hended hexec htime
    rw [if_neg hexec, ran_of_not_ended hended, htime]
    omega
  cases hstep with
  | @exec p left hat =>
      have hdev : s.timer.dev (some c) = .working := by
        have hagrees := h.linked.cpu c
        rwa [hat] at hagrees
      have hbehind := ((h.timer.deviceOk _ (mem_devList _)).devWork_working hdev).2
      simp [State.ran, State.goCpu, hat, CpuAt.ended, hbehind, Nat.add_comm]
  | enter hat ht =>
      have htime := (timer_pays h.timer ht ⟨rfl, rfl⟩ (by simp)).2
      have hbehind := Timer.behind_step ht htime (d := some c) (by simp)
      simp [State.ran, State.goCpu, hat, CpuAt.ended, hbehind, htime]
  | nextSlot hat ht =>
      have htime := (timer_pays h.timer ht ⟨rfl, rfl⟩ (by simp)).2
      rcases Timer.behind_check h.timer ht with ⟨hwork, hbehind⟩ | ⟨hwork, hbehind⟩
      · simp [State.ran, State.goCpu, hat, hbehind, htime]
      · simp [State.ran, State.goCpu, hat, CpuAt.ended, hwork, hbehind, htime]
  | detach hat ht =>
      have htime := (timer_pays h.timer ht ⟨rfl, rfl⟩ (by simp)).2
      exact hpass (by rw [hat]; rfl) (by simp [hat]) htime
  | get _ hat =>
      rcases hat with hat | hat <;> exact hpass (by rw [hat]; rfl) (by simp [hat]) rfl
  | idle hat | finish hat | expire hat | keep hat | getIdle hat | put hat | exit hat
    | skip hat | dispatch _ hat => exact hpass (by rw [hat]; rfl) (by simp [hat]) rfl

/-- A call of `run` is seen at `exec`. -/
theorem visible_call {a : Act n} {c : Fin n} {p : Nat}
    (h : visible cfg s a = some (.call c p)) :
    a = .cpu c ∧ s.cpu c = .exec ∧ s.sched.hold c = some p := by
  obtain ⟨d, q, rfl, hhold, hkind⟩ := visible_eq_some h
  have hcall : c = d ∧ p = q := by simpa using hkind
  obtain ⟨rfl, rfl⟩ := hcall
  refine ⟨rfl, ?_, hhold⟩
  rw [visible_held hhold] at h
  unfold sliceEvent at h
  split at h
  · split_ifs at h
    cases h
  · cases h
  · split_ifs at h
    cases h
  · assumption
  · cases h

/-- Without a call of `run` every program counter stays. -/
theorem pc_of_quiet {a : Act n} (hstep : Step cfg s a s')
    (hquiet : ∀ c p, visible cfg s a ≠ some (.call c p)) : s'.pc = s.pc := by
  funext p
  rcases pc_step hstep p with hsame | ⟨c, hcall, -⟩
  · exact hsame
  · exact absurd hcall (hquiet c p)

/-- `run` goes on by one instruction, up to the end of the program. -/
theorem pc_run (s : State n) (p : Nat) :
    (s.run cfg p).pc = if cfg.codeSize p ≤ s.pc p then s.pc
      else Function.update s.pc p (s.pc p + 1) := by
  unfold State.run
  split_ifs <;> rfl

/-- What the step is in which a CPU calls `run`. -/
theorem state_of_call {c : Fin n} {p : Nat} (hstep : Step cfg s (.cpu c) s')
    (hcall : visible cfg s (.cpu c) = some (.call c p)) :
    ∃ left, s' = { s.run cfg p with timeLeft := left }.goCpu c .enter := by
  obtain ⟨-, hexec, hhold⟩ := visible_call hcall
  cases cpuTurn_of_cpuRoutine hstep with
  | exec _ hheld =>
      obtain rfl := Option.some_inj.mp (hheld.symm.trans hhold)
      exact ⟨_, rfl⟩
  | idle hat | finish hat | expire hat | keep hat | getIdle hat | getFin hat | put hat
    | getPut hat | exit hat | skip hat | dispatch hat | resume hat | enter hat
    | nextSlot hat | detach hat => simp [hat] at hexec

/-- A call of `run` advances one program counter, up to the end of the program. -/
theorem pc_of_call {c : Fin n} {p : Nat} (hstep : Step cfg s (.cpu c) s')
    (hcall : visible cfg s (.cpu c) = some (.call c p)) :
    s'.pc = if cfg.codeSize p ≤ s.pc p then s.pc
      else Function.update s.pc p (s.pc p + 1) := by
  obtain ⟨left, rfl⟩ := state_of_call hstep hcall
  exact pc_run s p

/-- A call of `run` leaves the scheduler alone. -/
theorem sched_of_call {c : Fin n} {p : Nat} (hstep : Step cfg s (.cpu c) s')
    (hcall : visible cfg s (.cpu c) = some (.call c p)) :
    s'.sched = s.sched ∧ s'.cpu c = .enter := by
  obtain ⟨left, rfl⟩ := state_of_call hstep hcall
  exact ⟨run_sched _, by simp [State.goCpu]⟩

/-- The account of a CPU: each call of `run` takes it one slot further. -/
theorem ran_step (h : Sound cfg s) (c : Fin n) {e : Option (SliceEvent n)}
    (hstep : SliceStep cfg s e s') :
    (SliceEvent.calledBy c e).toNat + s.timer.time + s.ran c ≤ s'.timer.time + s'.ran c := by
  obtain ⟨a, hact, rfl⟩ := hstep
  by_cases ha : a = .cpu c
  · subst ha
    have hpaid := ran_cpuStep h (cpuStep_of_cpuRoutine hact)
    have hcalled : (SliceEvent.calledBy c (visible cfg s (.cpu c))).toNat ≤
        if s.cpu c = .exec then 1 else 0 := by
      cases hcall : SliceEvent.calledBy c (visible cfg s (.cpu c)) with
      | false => exact Nat.zero_le _
      | true =>
          obtain ⟨p, hev⟩ := calledBy_iff.mp hcall
          rw [if_pos (visible_call hev).2.1, Bool.toNat_true]
    omega
  · have hnot : SliceEvent.calledBy c (visible cfg s a) = false := by
      refine Bool.eq_false_iff.mpr fun hcall => ?_
      obtain ⟨p, hev⟩ := calledBy_iff.mp hcall
      exact ha (visible_call hev).1
    have hplace : s'.cpu c = s.cpu c := congrArg View.place (view_other ha hact)
    rw [hnot]
    rcases Nat.lt_or_ge s.timer.time s'.timer.time with hlt | hge
    · have hle := ran_le_one s c
      simp only [Bool.toNat_false]
      omega
    · have htime := Nat.le_antisymm hge (time_le hact)
      simp only [State.ran, hplace, behind_other (d := some c) ha hact htime, htime,
        Bool.toNat_false]
      omega

/-! ## The account of a process -/

/-- 1 for a process that a CPU holds which has done its work in the current slot. -/
def State.ranFor (s : State n) (p : Nat) : Nat :=
  if ∃ c, s.sched.hold c = some p ∧ s.ran c = 1 then 1 else 0

/-- A process has been run once in a slot. -/
theorem ranFor_le_one (s : State n) (p : Nat) : s.ranFor p ≤ 1 := by
  unfold State.ranFor
  split_ifs <;> omega

/-- A CPU keeps its process until its next slot. -/
theorem hold_of_ran {c : Fin n} (hran : s.ran c = 1) {a : Act n} (hstep : Step cfg s a s') :
    s'.sched.hold c = s.sched.hold c := by
  by_cases ha : a = .cpu c
  · subst ha
    have hended := ended_of_ran hran
    cases cpuStep_of_cpuRoutine hstep with
    | enter | nextSlot | detach => rfl
    | get _ hat => rcases hat with hat | hat <;> simp [hat, CpuAt.ended] at hended
    | idle hat | finish hat | expire hat | keep hat | getIdle hat | put hat | exit hat
      | skip hat | dispatch _ hat | exec _ hat => simp [hat, CpuAt.ended] at hended
  · exact congrArg View.proc (view_other ha hstep)

/-- The work of a CPU is that of the process that it holds. -/
theorem ranFor_of_ran {c : Fin n} {p : Nat} (hhold : s.sched.hold c = some p)
    (hran : s.ran c = 1) : s.ranFor p = 1 :=
  if_pos ⟨c, hhold, hran⟩

/-- A process whose CPU is about to call `run` has not done its work in the slot. -/
theorem ranFor_of_exec (h : Sound cfg s) {c : Fin n} {p : Nat} (hexec : s.cpu c = .exec)
    (hhold : s.sched.hold c = some p) : s.ranFor p = 0 := by
  rw [State.ranFor, if_neg]
  rintro ⟨d, hd, hran⟩
  obtain rfl := h.sched.hold_inj d c p hd hhold
  rw [ran_of_not_ended (by rw [hexec]; rfl)] at hran
  cases hran

/-- The account of a process: each call of `run` takes it one slot further. -/
theorem ranFor_step (h : Sound cfg s) (p : Nat) {e : Option (SliceEvent n)}
    (hstep : SliceStep cfg s e s') :
    (SliceEvent.calls p e).toNat + s.timer.time + s.ranFor p ≤
      s'.timer.time + s'.ranFor p := by
  have hseen := hstep
  obtain ⟨a, hact, rfl⟩ := hstep
  have htime := time_le hact
  by_cases hcall : ∃ c, visible cfg s a = some (.call c p)
  · -- the CPU that calls `run` has not done its work yet
    obtain ⟨c, hev⟩ := hcall
    obtain ⟨rfl, hexec, hhold⟩ := visible_call hev
    have hheld : s'.sched.hold c = some p := by rwa [(sched_of_call hact hev).1]
    have hzero := ranFor_of_exec h hexec hhold
    have hpaid := ran_step h c hseen
    rw [hev] at hpaid ⊢
    rcases Nat.lt_or_ge s.timer.time s'.timer.time with hlt | hge
    · simp only [SliceEvent.calls, decide_true, Bool.toNat_true, hzero]
      omega
    · have hone : s'.ran c = 1 := by
        have hle := ran_le_one s' c
        simp only [SliceEvent.calledBy, decide_true, Bool.toNat_true] at hpaid
        omega
      have hran := ranFor_of_ran hheld hone
      simp only [SliceEvent.calls, decide_true, Bool.toNat_true, hzero, hran]
      omega
  · have hnot : SliceEvent.calls p (visible cfg s a) = false :=
      Bool.eq_false_iff.mpr fun hcalls => hcall (calls_iff.mp hcalls)
    rw [hnot, Bool.toNat_false]
    by_cases hran : ∃ c, s.sched.hold c = some p ∧ s.ran c = 1
    · obtain ⟨c, hhold, hone⟩ := hran
      have hpaid := ran_step h c hseen
      have hheld : s'.sched.hold c = some p := (hold_of_ran hone hact).trans hhold
      have hfor := ranFor_of_ran hhold hone
      rcases Nat.lt_or_ge s.timer.time s'.timer.time with hlt | hge
      · omega
      · have hone' : s'.ran c = 1 := by
          have hle := ran_le_one s' c
          omega
        have hfor' := ranFor_of_ran hheld hone'
        omega
    · have hfor : s.ranFor p = 0 := by
        rw [State.ranFor, if_neg hran]
      omega

/-! ## The start time -/

/-- No process is ahead of its start time and of `_time`. -/
structure Paced (cfg : Config) (s : State n) : Prop where
  due : s.ld = .add → cfg.startTime s.i ≤ s.timer.time
  fresh : ∀ p, s.i ≤ p → s.pc p = 0
  pace : ∀ p < s.i, cfg.startTime p + s.pc p ≤ s.timer.time + s.ranFor p

/-- No process is ahead at the beginning. -/
theorem paced_boot : Paced cfg (boot : State n) := by
  constructor <;> simp [boot]

/-- The loader counts the processes that it adds. -/
theorem i_step {a : Act n} (hstep : Step cfg s a s') :
    s'.i = s.i ∨ s.ld = .add ∧ s'.i = s.i + 1 := by
  cases osStep_of_step hstep with
  | cpu hcpu => exact Or.inl hcpu.frame.i
  | timer => exact Or.inl rfl
  | ld hld =>
      cases hld with
      | add hat => exact Or.inr ⟨hat, rfl⟩
      | _ => exact Or.inl rfl

/-- The loader adds a process after its start time. -/
theorem due_step {a : Act n} (hdue : s.ld = .add → cfg.startTime s.i ≤ s.timer.time)
    (hstep : Step cfg s a s') (hat' : s'.ld = .add) :
    cfg.startTime s'.i ≤ s'.timer.time := by
  have htime := time_le hstep
  cases a with
  | cpu c =>
      have hframe := (cpuStep_of_cpuRoutine hstep).frame
      rw [hframe.ld] at hat'
      rw [hframe.i]
      exact (hdue hat').trans htime
  | ld =>
      cases ldStep_of_ldRoutine hstep with
      | due hat =>
          by_contra hlate
          have hlt : s.timer.time < cfg.startTime s.i := Nat.not_le.mp hlate
          simp [Step, Os.step, ldRoutine, hat, hlt, State.goLd] at hstep
      | nextSlotWait | nextSlotAdd =>
          simp only [State.goLd] at hat'
          split_ifs at hat'
      | _ => simp [State.goLd] at hat'
  | tick | wakeTimer | wake d | stop =>
      obtain ⟨t, -, rfl⟩ := Option.map_eq_some_iff.mp hstep
      exact (hdue hat').trans htime

/-- Every step keeps the pace. -/
theorem Paced.step (hS : Sound cfg s) (h : Paced cfg s) {a : Act n}
    (hstep : Step cfg s a s') : Paced cfg s' := by
  have htime := time_le hstep
  refine ⟨fun hat => due_step h.due hstep hat, ?_, ?_⟩
  · intro p hp
    have hip : s.i ≤ p := by
      rcases i_step hstep with hi | ⟨-, hi⟩ <;> omega
    rcases pc_step hstep p with hsame | ⟨c, hcall, -⟩
    · rw [hsame, h.fresh p hip]
    · have hlt := hS.callable.alive_lt p (hS.sched.hold_alive c p (visible_call hcall).2.2)
      omega
  · intro p hp
    by_cases hold : p < s.i
    · have hpace := h.pace p hold
      have hpaid := ranFor_step hS p ⟨a, hstep, rfl⟩
      rcases pc_step hstep p with hsame | ⟨c, hcall, -, hnext⟩
      · rw [hsame]
        omega
      · rw [hcall] at hpaid
        simp only [SliceEvent.calls, decide_true, Bool.toNat_true] at hpaid
        omega
    · -- the process that has just been added
      rcases i_step hstep with hi | ⟨hat, hi⟩
      · omega
      · obtain rfl : p = s.i := by omega
        have hdue := h.due hat
        have hfresh := h.fresh s.i (Nat.le_refl _)
        rcases pc_step hstep s.i with hsame | ⟨c, hcall, -⟩
        · rw [hsame, hfresh]
          omega
        · have hlt := hS.callable.alive_lt _
            (hS.sched.hold_alive c s.i (visible_call hcall).2.2)
          omega

/-- The pace is kept in every reachable state. -/
theorem paced_of_run {es : List (Act n)} (h : Lts.Run (Step cfg) boot es s) : Paced cfg s :=
  h.invariant_of (fun _ _ hrun => Sound.of_run hrun) paced_boot
    fun _ _ _ hS hP hstep => hP.step hS hstep

/-! ## Every run -/

/-- What is seen of a run comes from a run. -/
theorem run_of_sliceRun {t : State n} {es : List (Option (SliceEvent n))}
    (h : Lts.Run (SliceStep cfg) s es t) : Lts.Reachable (Step cfg) s t :=
  h.simulate id fun _ _ _ ⟨a, hact, _⟩ => Or.inr ⟨a, hact⟩

/-- Between two states of a simulation, no CPU and no process executes more instructions
than there are slots; and a process that has executed some has been waited for: it has
started at its start time at the earliest. -/
theorem speed_limit {as : List (Act n)} {t : State n} (hstart : Lts.Run (Step cfg) boot as s)
    {es : List (Option (SliceEvent n))} (h : Lts.Run (SliceStep cfg) s es t) :
    (∀ c, es.countP (SliceEvent.calledBy c) + s.timer.time ≤ t.timer.time + 1) ∧
    (∀ p, es.countP (SliceEvent.calls p) + s.timer.time ≤ t.timer.time + 1) ∧
    (∀ p, t.pc p ≠ 0 →
      p < cfg.numProcesses ∧ cfg.startTime p + t.pc p ≤ t.timer.time + 1) := by
  have hreach : ∀ es u, Lts.Run (SliceStep cfg) s es u →
      ∃ as, Lts.Run (Step cfg) boot as u := by
    intro es u hrun
    obtain ⟨bs, hbs⟩ := run_of_sliceRun hrun
    exact ⟨_, hstart.trans hbs⟩
  have hsound : ∀ es u, Lts.Run (SliceStep cfg) s es u → Sound cfg u := by
    intro es u hrun
    obtain ⟨as, has⟩ := hreach es u hrun
    exact Sound.of_run has
  refine ⟨?_, ?_, ?_⟩
  · intro c
    have hpaid := h.amortized (fun _ => 0) (fun u => u.timer.time + u.ran c)
      (fun e => (SliceEvent.calledBy c e).toNat) (fun _ => 0) hsound
      fun u e v hS hstep => by
        have hcpu := ran_step hS c hstep
        omega
    rw [Lts.total_toNat, Lts.total_zero] at hpaid
    have hle := ran_le_one t c
    omega
  · intro p
    have hpaid := h.amortized (fun _ => 0) (fun u => u.timer.time + u.ranFor p)
      (fun e => (SliceEvent.calls p e).toNat) (fun _ => 0) hsound
      fun u e v hS hstep => by
        have hproc := ranFor_step hS p hstep
        omega
    rw [Lts.total_toNat, Lts.total_zero] at hpaid
    have hle := ranFor_le_one t p
    omega
  · intro p hpc
    obtain ⟨as', has'⟩ := hreach es t h
    have hpaced := paced_of_run has'
    have hlt : p < t.i := by
      by_contra hge
      exact hpc (hpaced.fresh p (Nat.not_lt.mp hge))
    have hpace := hpaced.pace p hlt
    have hle := ranFor_le_one t p
    exact ⟨Nat.lt_of_lt_of_le hlt (linked_of_run has').counts.le, by omega⟩

/-- One CPU and one process, which has executed an instruction. -/
theorem speed_limit_one_cpu :
    ∃ (es : List (Option (SliceEvent 1))) (s : State 1), s.pc 0 = 1 ∧
      (∀ c, es.countP (SliceEvent.calledBy c) + 0 ≤ s.timer.time + 1) ∧
      (∀ p, es.countP (SliceEvent.calls p) + 0 ≤ s.timer.time + 1) ∧
      (∀ p, s.pc p ≠ 0 → p < 1 ∧ 0 + s.pc p ≤ s.timer.time + 1) := by
  obtain ⟨es, s, hrun, hobs⟩ := Lts.record_observe
    (fun (_ : State 1) (_ : Act 1) _ => True)
    (fun s a => (step shortConfig s a).map fun t => (visible shortConfig s a, t)) boot
    [.ld, .ld, .ld, .ld, .cpu 0, .cpu 0, .cpu 0, .cpu 0] (fun _ s => s.pc 0) (v := 1)
    (by decide +kernel)
  have hvisible : Lts.Run (SliceStep shortConfig) boot (es.map Prod.snd) s := by
    apply Lts.Run.map Prod.snd
    apply hrun.mono
    rintro t ⟨a, e⟩ u ⟨-, hstep⟩
    obtain ⟨u', hu, heq⟩ := Option.map_eq_some_iff.mp hstep
    obtain ⟨hvis, rfl⟩ := Prod.mk.inj heq
    exact ⟨a, hu, hvis⟩
  exact ⟨_, s, hobs, speed_limit Lts.Run.nil hvisible⟩

end Os
end Hdh
