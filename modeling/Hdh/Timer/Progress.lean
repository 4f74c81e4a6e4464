import Hdh.Timer.LockStep

/-!
# The timer makes progress

Two things could keep `_time` from advancing.  A thread could wait on a condition
variable that nobody signals any more; and the threads could go on for ever in one slot.
The first is excluded by the invariant of the devices.  For the second, the work that is
left in the current slot is a potential: each section uses some of it up, `_time++` brings
the work of a whole slot, and a spurious wake-up brings one section.

Main results:

- Theorem `waits_for_working`: when no section of the timer or behind a `next_slot` can
  be executed, the timer waits for a device that has not ended its slot.
- Theorem `work_step`: each section uses up a part of the work of its slot.
- Theorem `timer_progress`: the number of sections is linear in the number of slots, and
  nobody waits for ever.
-/

namespace Hdh
namespace Timer

variable {D : Type}

/-! ## No wake-up is lost -/

/-- The sections that need nothing but a mutex, and that the timer thread and the threads
in `next_slot` are about to execute. -/
def Act.Pending : Act D → Prop
  | .tick => True
  | .check _ => True
  | _ => False

variable [DecidableEq D] {devList : List D} {s s' : State D}

/-- A signal does not stop the timer. -/
theorem signal_eq_stopped {t : TimerAt D} {d : D} (h : t.signal d = .stopped) :
    t = .stopped := by
  unfold TimerAt.signal at h
  split at h
  · split_ifs at h
  · exact h

/-- `stop_timer` is called when every device has detached. -/
structure StopOk (devList : List D) (s : State D) : Prop where
  stopped : s.timer = .stopped → s.timerStop = true
  detached : s.timerStop = true → ∀ d ∈ devList, s.dev d = .detached

/-- Every step keeps this. -/
theorem StopOk.step (h : StopOk devList s) {a : Act D} (hstep : Step devList s a s') :
    StopOk devList s' := by
  constructor
  · intro hpos
    cases timerStep_of_step hstep with
    | stopped _ hstop => exact hstop
    | entered | detached => exact h.stopped (signal_eq_stopped hpos)
    | slept | returned | woken => exact h.stopped hpos
    | stop => rfl
    | _ => cases hpos
  · intro hstop d hd
    cases timerStep_of_step hstep with
    | stop hdetached => exact hdetached d hd
    | @released x =>
        by_cases hdx : d = x
        · subst hdx
          simp [h.detached hstop d hd, DevAt.signal]
        · simpa [hdx] using h.detached hstop d hd
    | @entered x hmem hwork | @detached x hmem hwork =>
        rw [h.detached hstop x hmem] at hwork
        cases hwork
    | @slept x hmem hent | @returned x hmem hent =>
        rw [h.detached hstop x hmem] at hent
        cases hent
    | @woken x hasleep =>
        have hdx : d ≠ x := by
          rintro rfl
          rw [h.detached hstop d hd] at hasleep
          cases hasleep
        simpa [hdx] using h.detached hstop d hd
    | _ => exact h.detached hstop d hd

/-- It holds in every reachable state. -/
theorem StopOk.of_run {es : List (Act D)} (h : Lts.Run (Step devList) start es s) :
    StopOk devList s :=
  h.invariant ⟨by simp [start], by simp [start]⟩ fun _ _ _ hI hstep => hI.step hstep

/-- The position of the timer thread when it has no section to execute. -/
theorem timer_of_stuck (h : step devList s .tick = none) :
    (∃ temp fsh event, s.timer = .waiting temp fsh event) ∨ s.timer = .left ∨
      s.timer = .stopped := by
  cases hpos : s.timer with
  | waiting temp fsh event => exact Or.inl ⟨temp, fsh, event, rfl⟩
  | left => exact Or.inr (Or.inl rfl)
  | stopped => exact Or.inr (Or.inr rfl)
  | loop =>
      simp only [step, tick, hpos] at h
      split_ifs at h
  | collect temp fsh event =>
      cases temp with
      | nil => simp [step, tick, hpos] at h
      | cons d temp =>
          simp only [step, tick, hpos] at h
          split_ifs at h
  | release temp fsh event =>
      cases temp with
      | nil =>
          simp only [step, tick, hpos] at h
          split_ifs at h
      | cons d temp => simp [step, tick, hpos] at h

/-- A device that is awake in `next_slot` has a section to execute. -/
theorem not_entered_of_stuck {d : D} (hd : d ∈ devList)
    (h : step devList s (.check d) = none) : s.dev d ≠ .entered := by
  intro hent
  simp only [step, if_pos hd, check, hent] at h
  split_ifs at h

/-- When neither the timer thread nor a device in `next_slot` has a section to execute,
the timer waits for a device that has not ended its slot, or nobody is left. -/
theorem waits_for_working (hI : LockStep devList s)
    (hstop : StopOk devList s)
    (hstuck : ∀ a : Act D, a.Pending → step devList s a = none) :
    (∃ d ∈ devList, s.dev d = .working ∧
      ∃ temp fsh event, s.timer = .waiting (d :: temp) fsh event) ∨
    (s.timer = .left ∨ s.timer = .stopped) ∧ ∀ d ∈ devList, s.dev d = .detached := by
  have hknows := hI.timerOk
  unfold TimerOk at hknows
  rcases timer_of_stuck (hstuck .tick trivial) with ⟨temp, fsh, event, hpos⟩ | hpos | hpos
  · rw [hpos] at hknows
    obtain ⟨pre, d, rest, hsplit, rfl, -, -, -, hdone, hfsh⟩ := hknows
    have hd : d ∈ devList := by simp [hsplit]
    have hdev := hI.deviceOk d hd
    refine Or.inl ⟨d, hd, ?_, rest, fsh, event, hpos⟩
    cases hat : s.dev d with
    | working => rfl
    | entered => exact absurd hat (not_entered_of_stuck hd (hstuck (.check d) trivial))
    | asleep =>
        rw [hdev.asleep hat] at hdone
        cases hdone
    | detached =>
        rw [hdev.fsh_iff.mpr hat] at hfsh
        cases hfsh
  · rw [hpos] at hknows
    exact Or.inr ⟨Or.inl hpos, fun d hd => (hI.deviceOk d hd).fsh_iff.mp (hknows d hd)⟩
  · exact Or.inr ⟨Or.inr hpos, hstop.detached (hstop.stopped hpos)⟩

/-! ## The work of a slot -/

/-- The sections that are counted: all but `stop_timer` and the spurious wake-ups. -/
def Act.own : Act D → Nat
  | .tick | .enter _ | .check _ | .detach _ => 1
  | .wakeTimer | .wake _ | .stop => 0

/-- The spurious wake-ups. -/
def Act.spurious : Act D → Nat
  | .wakeTimer | .wake _ => 1
  | _ => 0

/-- The work that is left for the timer thread up to the next `_time++`, with a unit for
each device that it may wake up. -/
def TimerAt.work (num : Nat) : TimerAt D → Nat
  | .loop => num + 2
  | .collect temp _ _ => temp.length + 1
  | .waiting temp _ _ => temp.length
  | .release temp _ _ => 2 * temp.length + num + 3
  | .left => 0
  | .stopped => 0

/-- The work that is left for a device up to the next `_time++`, with a unit for the
signal to the timer; a device that is `behind` still has to return from `next_slot`. -/
def DevAt.work (behind : Bool) : DevAt → Nat
  | .working => 3
  | .entered => if behind then 5 else 1
  | .asleep => if behind then 4 else 0
  | .detached => 0

/-- The device has not returned from the `next_slot` of the previous slot. -/
def State.behind (s : State D) (d : D) : Bool :=
  decide (s.returned d < s.time)

def State.devWork (s : State D) (d : D) : Nat :=
  (s.dev d).work (s.behind d)

/-- The work that is left in the current slot. -/
def State.work (devList : List D) (s : State D) : Nat :=
  s.timer.work devList.length + (devList.map s.devWork).sum

/-- The work of a whole slot. -/
def slotWork (num : Nat) : Nat :=
  7 * num + 3

omit [DecidableEq D] in
/-- A new slot gives a device four units of work at most. -/
theorem DevAt.work_le (a : DevAt) (behind behind' : Bool) :
    a.work behind' ≤ a.work behind + 4 := by
  cases a <;> cases behind <;> cases behind' <;> decide

omit [DecidableEq D] in
/-- To wake up is one unit of work. -/
theorem DevAt.work_asleep (behind : Bool) :
    DevAt.entered.work behind = DevAt.asleep.work behind + 1 := by
  cases behind <;> rfl

/-- A signal to the timer makes one unit of work at most. -/
theorem TimerAt.work_signal (t : TimerAt D) (num : Nat) (d : D) :
    (t.signal d).work num ≤ t.work num + 1 := by
  unfold TimerAt.signal
  split
  · split_ifs <;> simp [TimerAt.work]
  · exact Nat.le_succ _

omit [DecidableEq D] in
/-- So does a signal to a device. -/
theorem DevAt.work_signal (a : DevAt) (behind : Bool) :
    a.signal.work behind ≤ a.work behind + 1 := by
  cases a <;> cases behind <;> decide

/-- At most the device `d` has moved, and `_time` has not. -/
structure Moved (d : D) (s s' : State D) : Prop where
  time : s'.time = s.time
  dev : ∀ e, e ≠ d → s'.dev e = s.dev e
  returned : ∀ e, e ≠ d → s'.returned e = s.returned e

omit [DecidableEq D] in
/-- `_time++` brings the work of a slot. -/
theorem work_advance (devList : List D) (s : State D) (t : TimerAt D) (time : Nat) :
    ({ s with time := time, timer := t } : State D).work devList ≤
      t.work devList.length + (devList.map s.devWork).sum + devList.length * 4 := by
  have hsum : (devList.map ({ s with time := time, timer := t } : State D).devWork).sum ≤
      (devList.map s.devWork).sum + devList.length * 4 :=
    Lts.sum_map_le_add fun d _ => DevAt.work_le (s.dev d) _ _
  simp only [State.work]
  omega

omit [DecidableEq D] in
/-- A section that moves one device is paid for by the timer and this device. -/
theorem Moved.work {d : D} (h : Moved d s s') (hnodup : devList.Nodup) (hd : d ∈ devList)
    {own spurious : Nat}
    (hpay : own + s'.timer.work devList.length + s'.devWork d ≤
      s.timer.work devList.length + s.devWork d + spurious) :
    own + s'.work devList + slotWork devList.length * s.time ≤
      s.work devList + slotWork devList.length * s'.time + spurious := by
  have hchange : (devList.map s'.devWork).sum + s.devWork d =
      (devList.map s.devWork).sum + s'.devWork d := by
    apply Lts.sum_map_change hnodup hd
    intro e hed
    simp only [State.devWork, State.behind, h.dev e hed, h.returned e hed, h.time]
  rw [h.time]
  simp only [State.work]
  omega

omit [DecidableEq D] in
/-- A device works in the current slot. -/
theorem DeviceOk.devWork_working {d : D} (h : DeviceOk s d) (hwork : s.dev d = .working) :
    s.devWork d = 3 ∧ s.behind d = false := by
  have hret := (h.working hwork).2
  simp [State.devWork, State.behind, hwork, DevAt.work, hret]

omit [DecidableEq D] in
/-- A device whose `done` has been cleared returns from the slot that is over. -/
theorem DeviceOk.returned_lt {d : D} (h : DeviceOk s d) (hent : s.dev d = .entered)
    (hdone : s.done d = false) : s.returned d + 1 = s.time := by
  rcases h.inSlot (Or.inl hent) with ⟨-, htrue, -⟩ | ⟨-, htrue, -⟩ | ⟨-, -, hr⟩
  · exact absurd (htrue.symm.trans hdone) (by simp)
  · exact absurd (htrue.symm.trans hdone) (by simp)
  · exact hr

/-- Each section is paid for by the work of its slot. -/
theorem work_step (hnodup : devList.Nodup) (hI : LockStep devList s) {a : Act D}
    (hstep : Step devList s a s') :
    a.own + s'.work devList + slotWork devList.length * s.time ≤
      s.work devList + slotWork devList.length * s'.time + a.spurious := by
  cases timerStep_of_step hstep with
  | stopped hpos | begun hpos | waits hpos | left hpos | again hpos | counted hpos
    | wokenTimer hpos =>
      change _ + (_ + (devList.map s.devWork).sum) + _ ≤ _
      simp only [State.work, hpos, TimerAt.work, Act.own, Act.spurious, List.length_cons,
        List.length_nil]
      omega
  | @advanced fsh event hpos =>
      have hnew := work_advance devList s (.release devList fsh event) (s.time + 1)
      simp only [State.work, hpos, TimerAt.work, List.length_nil, Act.own, Act.spurious,
        slotWork, Nat.mul_add] at hnew ⊢
      omega
  | @released d temp fsh event hpos =>
      have hknows := hI.timerOk
      unfold TimerOk at hknows
      rw [hpos] at hknows
      obtain ⟨pre, hsplit, -, -⟩ := hknows
      have hd : d ∈ devList := by simp [hsplit]
      have hsignal := (s.dev d).work_signal (s.behind d)
      refine Moved.work (d := d) ?_ hnodup hd ?_
      · exact ⟨rfl, fun e hed => Function.update_of_ne hed _ _, fun _ _ => rfl⟩
      simp only [hpos, TimerAt.work, List.length_cons, State.devWork, State.behind,
        Function.update_self, Act.own, Act.spurious] at hsignal ⊢
      omega
  | @entered d hd hwork =>
      obtain ⟨hthree, hbehind⟩ := (hI.deviceOk _ hd).devWork_working hwork
      have hsignal := s.timer.work_signal devList.length d
      refine Moved.work (d := d) ?_ hnodup hd ?_
      · exact ⟨rfl, fun e hed => Function.update_of_ne hed _ _, fun _ _ => rfl⟩
      rw [hthree]
      rw [State.behind, decide_eq_false_iff_not] at hbehind
      simp only [State.devWork, State.behind, Function.update_self, DevAt.work,
        Act.own, Act.spurious, hbehind, decide_false, Bool.false_eq_true, if_false]
      omega
  | @detached d hd hwork =>
      obtain ⟨hthree, -⟩ := (hI.deviceOk _ hd).devWork_working hwork
      have hsignal := s.timer.work_signal devList.length d
      refine Moved.work (d := d) ?_ hnodup hd ?_
      · exact ⟨rfl, fun e hed => Function.update_of_ne hed _ _, fun _ _ => rfl⟩
      rw [hthree]
      simp only [State.devWork, Function.update_self, DevAt.work, Act.own, Act.spurious]
      omega
  | @slept d hd hent hdone =>
      have hless := DevAt.work_asleep (s.behind d)
      refine Moved.work (d := d) ?_ hnodup hd ?_
      · exact ⟨rfl, fun e hed => Function.update_of_ne hed _ _, fun _ _ => rfl⟩
      simp only [State.devWork, State.behind, hent, Function.update_self, Act.own,
        Act.spurious] at hless ⊢
      omega
  | @returned d hd hent hdone =>
      have hret := (hI.deviceOk d hd).returned_lt hent hdone
      have hlt : s.returned d < s.time := by omega
      refine Moved.work (d := d) ?_ hnodup hd ?_
      · exact ⟨rfl, fun e hed => Function.update_of_ne hed _ _,
          fun e hed => Function.update_of_ne hed _ _⟩
      simp only [State.devWork, State.behind, hent, Function.update_self, DevAt.work,
        Act.own, Act.spurious, hlt, decide_true, if_true]
      omega
  | @woken d hasleep =>
      by_cases hd : d ∈ devList
      · have hless := DevAt.work_asleep (s.behind d)
        refine Moved.work (d := d) ?_ hnodup hd ?_
        · exact ⟨rfl, fun e hed => Function.update_of_ne hed _ _, fun _ _ => rfl⟩
        simp only [State.devWork, State.behind, hasleep, Function.update_self, Act.own,
          Act.spurious] at hless ⊢
        omega
      · have hsame : devList.map ({ s with
            dev := Function.update s.dev d .entered } : State D).devWork =
            devList.map s.devWork := by
          refine List.map_congr_left fun e he => ?_
          have hed : e ≠ d := fun hed => hd (hed ▸ he)
          simp only [State.devWork, State.behind, Function.update_of_ne hed]
        simp only [State.work, hsame, Act.own, Act.spurious]
        omega
  | stop =>
      change 0 + s.work devList + slotWork devList.length * s.time ≤
        s.work devList + slotWork devList.length * s.time + 0
      omega

/-! ## The devices that are behind -/

/-- Only the timer thread changes `_time`. -/
theorem time_step {a : Act D} (hstep : Step devList s a s') :
    s'.time = s.time ∨ a = .tick ∧ s'.time = s.time + 1 := by
  cases timerStep_of_step hstep with
  | advanced => exact Or.inr ⟨rfl, rfl⟩
  | _ => exact Or.inl rfl

/-- Only a device that returns from `next_slot` changes its count. -/
theorem returned_step {a : Act D} (hstep : Step devList s a s') {d : D}
    (hd : a ≠ .check d) : s'.returned d = s.returned d := by
  cases timerStep_of_step hstep with
  | @returned x =>
      have hdx : d ≠ x := by
        rintro rfl
        exact hd rfl
      exact Function.update_of_ne hdx _ _
  | _ => rfl

/-- Within a slot, a device falls behind or catches up by its own `check` only. -/
theorem behind_step {a : Act D} (hstep : Step devList s a s') {d : D}
    (htime : s'.time = s.time) (hd : a ≠ .check d) : s'.behind d = s.behind d := by
  rw [State.behind, State.behind, htime, returned_step hstep hd]

/-- A device that returns from `next_slot` was behind. -/
theorem behind_check (hI : LockStep devList s) {d : D}
    (hstep : Step devList s (.check d) s') :
    s'.dev d = .working ∧ s.behind d = true ∨
      s'.dev d ≠ .working ∧ s'.behind d = s.behind d := by
  cases timerStep_of_step hstep with
  | slept => exact Or.inr ⟨by simp, rfl⟩
  | returned hd hent hdone =>
      refine Or.inl ⟨Function.update_self _ _ _, decide_eq_true ?_⟩
      have hret := (hI.deviceOk d hd).returned_lt hent hdone
      omega

/-- A device that is not behind stays in `next_slot`. -/
theorem stays_of_check (hI : LockStep devList s) {d : D}
    (hstep : Step devList s (.check d) s') (hbehind : s.behind d = false) :
    s'.dev d ≠ .working ∧ s'.returned d = s.returned d := by
  cases timerStep_of_step hstep with
  | slept => exact ⟨by simp, rfl⟩
  | returned hd hent hdone =>
      have hret := (hI.deviceOk d hd).returned_lt hent hdone
      rw [State.behind, decide_eq_false_iff_not] at hbehind
      omega

/-- `_time` advances when every device has detached or has ended its slot. -/
theorem advanced_of_time (hI : LockStep devList s) {a : Act D} (hstep : Step devList s a s')
    (htime : s'.time ≠ s.time) {d : D} (hd : d ∈ devList) :
    s'.dev d = s.dev d ∧ (s.dev d = .detached ∨ (s.dev d = .entered ∨ s.dev d = .asleep) ∧
      s.behind d = false ∧ s'.behind d = true) := by
  cases timerStep_of_step hstep with
  | @advanced fsh event hpos =>
      have hcol : s.timer.collected d := by simp [TimerAt.collected, hpos]
      have hdue : ¬ s.timer.due d := by simp [TimerAt.due, hpos]
      refine ⟨rfl, ?_⟩
      rcases (hI.deviceOk d hd).waits hcol hdue with hdet | ⟨hin, hret⟩
      · exact Or.inl hdet
      · exact Or.inr ⟨hin, by simp [State.behind, hret], by simp [State.behind, hret]⟩
  | _ => exact absurd rfl htime

/-! ## Every run -/

omit [DecidableEq D] in
/-- The work at the beginning is that of one slot at most. -/
theorem work_start (devList : List D) :
    (start : State D).work devList ≤ slotWork devList.length := by
  have hsum : (devList.map (start : State D).devWork).sum ≤
      (devList.map fun _ => 0).sum + devList.length * 3 :=
    Lts.sum_map_le_add fun d _ => by simp [State.devWork, start, DevAt.work]
  simp only [List.map_const', List.sum_replicate_nat, Nat.mul_zero] at hsum
  change devList.length + 2 + (devList.map (start : State D).devWork).sum ≤ _
  simp only [slotWork]
  omega

/-- The timer makes progress: in every run the number of sections is at most linear in the
number of slots, apart from spurious wake-ups; and whenever neither the timer thread nor a
device in `next_slot` has a section to execute, the timer waits for a device that has not
ended its slot, or every device has detached and the timer has stopped. -/
theorem timer_progress (hnodup : devList.Nodup) {es : List (Act D)}
    (h : Lts.Run (Step devList) start es s) :
    Lts.total Act.own es ≤
      slotWork devList.length * (s.time + 1) + Lts.total Act.spurious es ∧
    ((∀ a : Act D, a.Pending → step devList s a = none) →
      (∃ d ∈ devList, s.dev d = .working ∧
        ∃ temp fsh event, s.timer = .waiting (d :: temp) fsh event) ∨
      (s.timer = .left ∨ s.timer = .stopped) ∧ ∀ d ∈ devList, s.dev d = .detached) := by
  have hI := LockStep.of_run hnodup h
  constructor
  · have hpaid := h.amortized (fun t => t.work devList)
      (fun t => slotWork devList.length * t.time) Act.own Act.spurious
      (fun _ _ hrun => LockStep.of_run hnodup hrun)
      fun _ _ _ hJ hstep => work_step hnodup hJ hstep
    have hstart := work_start devList
    rw [Nat.mul_add, Nat.mul_one]
    omega
  · exact waits_for_working hI (StopOk.of_run h)

/-- Two devices, of which one is asleep in `next_slot` and the timer waits for the other. -/
theorem timer_progress_two_devices :
    ∃ s : State (Fin 2),
      Lts.exec (step [1, 0]) start [.tick, .enter 1, .check 1, .tick, .tick] = some s ∧
      5 ≤ 17 * (s.time + 1) ∧
      ((∀ a : Act (Fin 2), a.Pending → step [1, 0] s a = none) →
        (∃ d ∈ [1, 0], s.dev d = .working ∧
          ∃ temp fsh event, s.timer = .waiting (d :: temp) fsh event) ∨
        (s.timer = .left ∨ s.timer = .stopped) ∧ ∀ d ∈ [1, 0], s.dev d = .detached) := by
  have hdef : (Lts.exec (step [1, 0]) (start : State (Fin 2))
      [.tick, .enter 1, .check 1, .tick, .tick]).isSome = true := by
    decide +kernel
  obtain ⟨s, hs⟩ := Option.isSome_iff_exists.mp hdef
  exact ⟨s, hs, timer_progress (by decide) (Lts.exec_run hs)⟩

end Timer
end Hdh
