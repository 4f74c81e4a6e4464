import Hdh.Library.Runs
import Hdh.Timer.Model

/-!
# The devices advance in lock-step

The invariant says, for each device, how far it is compared with `_time`.  A
device whose release is due, because `_time` has been advanced and the timer has
not come to it yet in its second walk, is one slot behind and still waits with
`done` set; a device that the first walk has passed waits with `done` set or has
detached.  Everything else follows from these two positions of a device relative
to the walk of the timer.

Main results:

- Theorem `timerStep_of_step`: what a section can do, branch by branch.
- Theorem `deviceOk_step`: each section keeps the invariant of each device.
- Theorem `timerOk_step`: each section keeps what the timer knows.
- Theorem `lock_step`: devices stay within one slot of `_time`, no release is
  lost, and the timer leaves its loop only when every device has detached.
-/

namespace Hdh
namespace Timer

variable {D : Type}

/-- The slot is over for `d`, but the second walk has not come to it yet. -/
def TimerAt.due : TimerAt D → D → Prop
  | .release temp _ _, d => d ∈ temp
  | _, _ => False

/-- The first walk has passed `d` in the current slot. -/
def TimerAt.collected : TimerAt D → D → Prop
  | .collect temp _ _, d => d ∉ temp
  | .waiting temp _ _, d => d ∉ temp
  | _, _ => False

/-- The invariant of one device. -/
structure DeviceOk (s : State D) (d : D) : Prop where
  fsh_iff : s.fsh d = true ↔ s.dev d = .detached
  working : s.dev d = .working → s.done d = false ∧ s.returned d = s.time
  inSlot : s.dev d = .entered ∨ s.dev d = .asleep →
    (¬ s.timer.due d ∧ s.done d = true ∧ s.returned d = s.time) ∨
    (s.timer.due d ∧ s.done d = true ∧ s.returned d + 1 = s.time) ∨
    (¬ s.timer.due d ∧ s.done d = false ∧ s.returned d + 1 = s.time)
  asleep : s.dev d = .asleep → s.done d = true
  due : s.timer.due d → s.dev d ≠ .working
  collected : s.timer.collected d →
    s.dev d ≠ .working ∧ (s.dev d ≠ .detached → s.done d = true)

/-- What the timer thread knows at each position of its walks. -/
def TimerOk (devList : List D) (s : State D) : Prop :=
  match s.timer with
  | .collect temp fsh event =>
      ∃ pre, devList = pre ++ temp ∧ event = pre.length ∧ fsh ≤ event ∧
        (fsh = event → ∀ d ∈ pre, s.fsh d = true)
  | .waiting temp fsh event =>
      ∃ pre d rest, devList = pre ++ temp ∧ temp = d :: rest ∧
        event = pre.length ∧ fsh ≤ event ∧
        (fsh = event → ∀ d ∈ pre, s.fsh d = true) ∧
        s.done d = false ∧ s.fsh d = false
  | .release temp fsh event =>
      ∃ pre, devList = pre ++ temp ∧ event = devList.length ∧
        (fsh = event → ∀ d ∈ devList, s.fsh d = true)
  | .left => ∀ d ∈ devList, s.fsh d = true
  | .loop => True
  | .stopped => True

/-- A device is in step when the timer is started. -/
theorem deviceOk_start (d : D) : DeviceOk (start : State D) d := by
  constructor <;> simp [start, TimerAt.due, TimerAt.collected]

/-- So is the timer. -/
theorem timerOk_start (devList : List D) : TimerOk devList (start : State D) :=
  trivial

variable [DecidableEq D] {devList : List D} {s s' : State D}

/-! ## What a step can do -/

/-- Everything that a step can do, branch by branch. -/
inductive TimerStep (devList : List D) (s : State D) : Act D → State D → Prop
  | stopped : s.timer = .loop → s.timerStop = true →
      TimerStep devList s .tick { s with timer := .stopped }
  | begun : s.timer = .loop → s.timerStop = false →
      TimerStep devList s .tick { s with timer := .collect devList 0 0 }
  | advanced {fsh event : Nat} : s.timer = .collect [] fsh event →
      TimerStep devList s .tick
        { s with time := s.time + 1, timer := .release devList fsh event }
  | counted {d : D} {temp : List D} {fsh event : Nat} :
      s.timer = .collect (d :: temp) fsh event → s.done d = true ∨ s.fsh d = true →
      TimerStep devList s .tick { s with
        timer := .collect temp (if s.fsh d then fsh + 1 else fsh) (event + 1) }
  | waits {d : D} {temp : List D} {fsh event : Nat} :
      s.timer = .collect (d :: temp) fsh event → s.done d = false → s.fsh d = false →
      TimerStep devList s .tick { s with timer := .waiting (d :: temp) fsh event }
  | left {fsh event : Nat} : s.timer = .release [] fsh event → fsh = event →
      TimerStep devList s .tick { s with timer := .left }
  | again {fsh event : Nat} : s.timer = .release [] fsh event → fsh ≠ event →
      TimerStep devList s .tick { s with timer := .loop }
  | released {d : D} {temp : List D} {fsh event : Nat} :
      s.timer = .release (d :: temp) fsh event →
      TimerStep devList s .tick { s with
        done := Function.update s.done d false
        dev := Function.update s.dev d (s.dev d).signal
        timer := .release temp fsh event }
  | wokenTimer {temp : List D} {fsh event : Nat} : s.timer = .waiting temp fsh event →
      TimerStep devList s .wakeTimer { s with timer := .collect temp fsh event }
  | entered {d : D} : d ∈ devList → s.dev d = .working →
      TimerStep devList s (.enter d) { s with
        done := Function.update s.done d true
        timer := s.timer.signal d
        dev := Function.update s.dev d .entered }
  | slept {d : D} : d ∈ devList → s.dev d = .entered → s.done d = true →
      TimerStep devList s (.check d) { s with dev := Function.update s.dev d .asleep }
  | returned {d : D} : d ∈ devList → s.dev d = .entered → s.done d = false →
      TimerStep devList s (.check d) { s with
        dev := Function.update s.dev d .working
        returned := Function.update s.returned d (s.returned d + 1) }
  | woken {d : D} : s.dev d = .asleep →
      TimerStep devList s (.wake d) { s with dev := Function.update s.dev d .entered }
  | detached {d : D} : d ∈ devList → s.dev d = .working →
      TimerStep devList s (.detach d) { s with
        fsh := Function.update s.fsh d true
        timer := s.timer.signal d
        dev := Function.update s.dev d .detached }
  | stop : (∀ d ∈ devList, s.dev d = .detached) →
      TimerStep devList s .stop { s with timerStop := true }

/-- Each turn of `timer_routine` is one of the branches. -/
theorem timerStep_of_tick (hstep : tick devList s = some s') :
    TimerStep devList s .tick s' := by
  unfold tick at hstep
  split at hstep
  · rename_i hpos
    split_ifs at hstep with hstop <;> cases hstep
    · exact .stopped hpos hstop
    · exact .begun hpos (Bool.eq_false_iff.mpr hstop)
  · rename_i hpos
    cases hstep
    exact .advanced hpos
  · rename_i hpos
    split at hstep
    · rename_i hgo
      cases hstep
      exact .counted hpos (by simpa using hgo)
    · rename_i hgo
      cases hstep
      simp only [Bool.or_eq_true, not_or, Bool.not_eq_true] at hgo
      exact .waits hpos hgo.1 hgo.2
  · rename_i hpos
    split_ifs at hstep with heq <;> cases hstep
    · exact .left hpos heq
    · exact .again hpos heq
  · rename_i hpos
    cases hstep
    exact .released hpos
  · cases hstep
  · cases hstep
  · cases hstep

/-- So is each step of a device. -/
theorem timerStep_of_step {a : Act D} (hstep : step devList s a = some s') :
    TimerStep devList s a s' := by
  cases a with
  | tick => exact timerStep_of_tick hstep
  | wakeTimer =>
      simp only [step] at hstep
      split at hstep <;> cases hstep
      rename_i hpos
      exact .wokenTimer hpos
  | enter d =>
      simp only [step, enter] at hstep
      split_ifs at hstep with hmem
      split at hstep <;> cases hstep
      rename_i hdev
      exact .entered hmem hdev
  | check d =>
      simp only [step, check] at hstep
      split_ifs at hstep with hmem hdone <;> split at hstep <;> cases hstep
      · rename_i hdev
        exact .slept hmem hdev hdone
      · rename_i hdev
        exact .returned hmem hdev (Bool.eq_false_iff.mpr hdone)
  | wake d =>
      simp only [step] at hstep
      split at hstep <;> cases hstep
      rename_i hdev
      exact .woken hdev
  | detach d =>
      simp only [step, detachEvent] at hstep
      split_ifs at hstep with hmem
      split at hstep <;> cases hstep
      rename_i hdev
      exact .detached hmem hdev
  | stop =>
      simp only [step] at hstep
      split_ifs at hstep with hall
      cases hstep
      exact .stop hall

/-! ## Signals do not move the walk -/

/-- A signal does not change for which devices the slot is over. -/
@[simp]
theorem due_signal (t : TimerAt D) (x d : D) : (t.signal x).due d ↔ t.due d := by
  unfold TimerAt.signal
  split
  · split <;> rfl
  · rfl

/-- Nor which devices have been collected. -/
@[simp]
theorem collected_signal (t : TimerAt D) (x d : D) :
    (t.signal x).collected d ↔ t.collected d := by
  unfold TimerAt.signal
  split
  · split <;> rfl
  · rfl

/-- A device that gets a signal is not asleep. -/
@[simp]
theorem signal_eq_asleep (a : DevAt) : a.signal ≠ .asleep := by
  cases a <;> simp [DevAt.signal]

/-! ## The invariant of a device -/

omit [DecidableEq D] in
/-- The timer thread moves: the slot counter and the devices are as before, and
the position of the walk relative to the device is as described. -/
theorem DeviceOk.move {s : State D} {d : D} (h : DeviceOk s d) {t : TimerAt D}
    (hdue : t.due d ↔ s.timer.due d)
    (hcollected : t.collected d → s.timer.collected d ∨
      s.dev d ≠ .working ∧ (s.dev d ≠ .detached → s.done d = true)) :
    DeviceOk { s with timer := t } d := by
  refine ⟨h.fsh_iff, h.working, ?_, h.asleep, ?_, ?_⟩
  · intro hin
    simpa only [hdue] using h.inSlot hin
  · intro hd
    exact h.due (hdue.mp hd)
  · intro hc
    rcases hcollected hc with hold | hnew
    · exact h.collected hold
    · exact hnew

omit [DecidableEq D] in
/-- `_time++` makes the release of every device due. -/
theorem DeviceOk.advanced {d : D} (h : DeviceOk s d) (hmem : d ∈ devList)
    {fsh event : Nat} (hpos : s.timer = .collect [] fsh event) :
    DeviceOk { s with time := s.time + 1, timer := .release devList fsh event } d := by
  have hcol : s.timer.collected d := by simp [TimerAt.collected, hpos]
  have hnotdue : ¬ s.timer.due d := by simp [TimerAt.due, hpos]
  obtain ⟨hwork, hdone⟩ := h.collected hcol
  refine ⟨h.fsh_iff, fun hw => absurd hw hwork, ?_, h.asleep,
    fun _ => hwork, by simp [TimerAt.collected]⟩
  intro hin
  have hd : s.done d = true := by
    apply hdone
    rcases hin with hin | hin
    · exact fun hdet => by cases hin.symm.trans hdet
    · exact fun hdet => by cases hin.symm.trans hdet
  rcases h.inSlot hin with ⟨-, -, hr⟩ | ⟨hdue, -, -⟩ | ⟨-, hnot, -⟩
  · exact Or.inr (Or.inl ⟨hmem, hd, by simp [hr]⟩)
  · exact absurd hdue hnotdue
  · rw [hd] at hnot
    cases hnot

omit [DecidableEq D] in
/-- The first walk passes a device that has set one of its flags. -/
theorem DeviceOk.counted {d x : D} (h : DeviceOk s d) {temp : List D}
    {fsh event : Nat} (hpos : s.timer = .collect (x :: temp) fsh event)
    (hset : s.done x = true ∨ s.fsh x = true) (fsh' event' : Nat) :
    DeviceOk { s with timer := .collect temp fsh' event' } d := by
  refine h.move (by simp [TimerAt.due, hpos]) ?_
  intro hc
  by_cases hdx : d = x
  · subst hdx
    right
    constructor
    · intro hw
      rcases hset with hset | hset
      · rw [(h.working hw).1] at hset
        cases hset
      · rw [h.fsh_iff, hw] at hset
        cases hset
    · intro hnd
      rcases hset with hset | hset
      · exact hset
      · exact absurd (h.fsh_iff.mp hset) hnd
  · left
    rw [hpos]
    simpa [TimerAt.collected, hdx] using hc

/-- A step of another device leaves the invariant of `d` alone. -/
theorem DeviceOk.other {s : State D} {d x : D} (h : DeviceOk s d) (hdx : d ≠ x)
    (t : TimerAt D) (hdue : t.due d ↔ s.timer.due d)
    (hcol : t.collected d ↔ s.timer.collected d)
    (b b' : Bool) (a : DevAt) (r : Nat) :
    DeviceOk { s with
      timer := t, done := Function.update s.done x b,
      fsh := Function.update s.fsh x b', dev := Function.update s.dev x a,
      returned := Function.update s.returned x r } d := by
  constructor <;> simp only [Function.update_of_ne hdx, hdue, hcol]
  · exact h.fsh_iff
  · exact h.working
  · exact h.inSlot
  · exact h.asleep
  · exact h.due
  · exact h.collected

/-- The second walk releases a device. -/
theorem DeviceOk.released {d x : D} (h : DeviceOk s d) {temp : List D}
    {fsh event : Nat} (hpos : s.timer = .release (x :: temp) fsh event)
    (hx : x ∉ temp) :
    DeviceOk { s with
      done := Function.update s.done x false
      dev := Function.update s.dev x (s.dev x).signal
      timer := .release temp fsh event } d := by
  have hdue : s.timer.due d ↔ d = x ∨ d ∈ temp := by
    simp [TimerAt.due, hpos]
  by_cases hdx : d = x
  · subst hdx
    have hdued : s.timer.due d := hdue.mpr (Or.inl rfl)
    have hwork := h.due hdued
    refine ⟨?_, ?_, ?_, ?_, ?_, ?_⟩
    · simp only [Function.update_self]
      rw [h.fsh_iff]
      cases s.dev d <;> simp [DevAt.signal]
    · simp only [Function.update_self]
      intro hw
      cases hdev : s.dev d <;> simp_all [DevAt.signal]
    · simp only [Function.update_self]
      intro hin
      have hin' : s.dev d = .entered ∨ s.dev d = .asleep := by
        cases hdev : s.dev d <;> simp_all [DevAt.signal]
      rcases h.inSlot hin' with ⟨hnot, -, -⟩ | ⟨-, -, hr⟩ | ⟨hnot, -, -⟩
      · exact absurd hdued hnot
      · exact Or.inr (Or.inr ⟨hx, trivial, hr⟩)
      · exact absurd hdued hnot
    · simp
    · intro hd
      exact absurd hd hx
    · simp [TimerAt.collected]
  · have hdue' : (TimerAt.release temp fsh event).due d ↔ s.timer.due d := by
      rw [hdue]
      simp [hdx, TimerAt.due]
    have hcol : (TimerAt.release temp fsh event).collected d ↔ s.timer.collected d := by
      simp [TimerAt.collected, hpos]
    simpa using h.other hdx (.release temp fsh event) hdue' hcol false (s.fsh x)
      (s.dev x).signal (s.returned x)

omit [DecidableEq D] in
/-- The timer does not look at a device that is working. -/
theorem DeviceOk.not_due {d : D} (h : DeviceOk s d) (hwork : s.dev d = .working) :
    ¬ s.timer.due d ∧ ¬ s.timer.collected d :=
  ⟨fun hdue => h.due hdue hwork, fun hcol => (h.collected hcol).1 hwork⟩

/-- A device that enters `next_slot` leaves the others in step. -/
theorem DeviceOk.entered {d x : D} (h : DeviceOk s d) (hwork : s.dev x = .working) :
    DeviceOk { s with
      done := Function.update s.done x true
      timer := s.timer.signal x
      dev := Function.update s.dev x .entered } d := by
  by_cases hdx : d = x
  · subst hdx
    obtain ⟨hnotdue, hnotcol⟩ := h.not_due hwork
    have hfsh : s.fsh d ≠ true := by
      rw [Ne, h.fsh_iff, hwork]
      simp
    constructor <;> simp [hnotdue, hnotcol, hfsh, (h.working hwork).2]
  · simpa using h.other hdx (s.timer.signal x) (due_signal _ _ _)
      (collected_signal _ _ _) true (s.fsh x) .entered (s.returned x)

/-- A device goes to sleep, or is woken up, in `next_slot`. -/
theorem DeviceOk.moved {d x : D} (h : DeviceOk s d)
    (hin : s.dev x = .entered ∨ s.dev x = .asleep) {a : DevAt}
    (ha : a = .entered ∨ a = .asleep) (hasleep : a = .asleep → s.done x = true) :
    DeviceOk { s with dev := Function.update s.dev x a } d := by
  by_cases hdx : d = x
  · subst hdx
    have hattached : s.dev d ≠ .detached := by
      rcases hin with hin | hin <;> simp [hin]
    have hfsh : s.fsh d ≠ true := mt h.fsh_iff.mp hattached
    have ha' : a ≠ .working ∧ a ≠ .detached := by
      rcases ha with rfl | rfl <;> simp
    constructor <;> simp only [Function.update_self]
    · simp [hfsh, ha'.2]
    · exact fun hw => absurd hw ha'.1
    · exact fun _ => h.inSlot hin
    · exact hasleep
    · exact fun _ => ha'.1
    · exact fun hc => ⟨ha'.1, fun _ => (h.collected hc).2 hattached⟩
  · simpa using h.other hdx s.timer Iff.rfl Iff.rfl (s.done x) (s.fsh x) a (s.returned x)

/-- `next_slot` returns. -/
theorem DeviceOk.returns {d x : D} (h : DeviceOk s d) (hent : s.dev x = .entered)
    (hdone : s.done x = false) :
    DeviceOk { s with
      dev := Function.update s.dev x .working
      returned := Function.update s.returned x (s.returned x + 1) } d := by
  by_cases hdx : d = x
  · subst hdx
    have hfsh : s.fsh d ≠ true := by
      rw [Ne, h.fsh_iff, hent]
      simp
    have hret : ¬ s.timer.due d ∧ s.returned d + 1 = s.time := by
      rcases h.inSlot (Or.inl hent) with ⟨-, hd, -⟩ | ⟨-, hd, -⟩ | ⟨hnot, -, hr⟩
      · exact absurd (hd.symm.trans hdone) (by simp)
      · exact absurd (hd.symm.trans hdone) (by simp)
      · exact ⟨hnot, hr⟩
    have hnotcol : ¬ s.timer.collected d := by
      intro hc
      have hd := (h.collected hc).2 (by simp [hent])
      exact absurd (hd.symm.trans hdone) (by simp)
    constructor <;> simp [hfsh, hdone, hret.1, hret.2, hnotcol]
  · simpa using h.other hdx s.timer Iff.rfl Iff.rfl (s.done x) (s.fsh x)
      .working (s.returned x + 1)

/-- So does a device that detaches. -/
theorem DeviceOk.detached {d x : D} (h : DeviceOk s d) (hwork : s.dev x = .working) :
    DeviceOk { s with
      fsh := Function.update s.fsh x true
      timer := s.timer.signal x
      dev := Function.update s.dev x .detached } d := by
  by_cases hdx : d = x
  · subst hdx
    obtain ⟨hnotdue, hnotcol⟩ := h.not_due hwork
    constructor <;> simp [hnotdue, hnotcol]
  · simpa using h.other hdx (s.timer.signal x) (due_signal _ _ _)
      (collected_signal _ _ _) (s.done x) true .detached (s.returned x)

/-- Every section keeps the invariant of every device. -/
theorem deviceOk_step {d : D} (hmem : d ∈ devList) (hnodup : devList.Nodup)
    (hT : TimerOk devList s) (h : DeviceOk s d) {a : Act D}
    (hstep : TimerStep devList s a s') : DeviceOk s' d := by
  cases hstep with
  | stopped hpos =>
      exact h.move (by simp [TimerAt.due, hpos]) (by simp [TimerAt.collected])
  | begun hpos =>
      exact h.move (by simp [TimerAt.due, hpos]) (by simp [TimerAt.collected, hmem])
  | advanced hpos => exact h.advanced hmem hpos
  | counted hpos hset => exact h.counted hpos hset _ _
  | waits hpos =>
      exact h.move (by simp [TimerAt.due, hpos])
        (fun hc => Or.inl (by rw [hpos]; exact hc))
  | left hpos =>
      exact h.move (by simp [TimerAt.due, hpos]) (by simp [TimerAt.collected])
  | again hpos =>
      exact h.move (by simp [TimerAt.due, hpos]) (by simp [TimerAt.collected])
  | released hpos =>
      unfold TimerOk at hT
      rw [hpos] at hT
      obtain ⟨pre, hsplit, -, -⟩ := hT
      rw [hsplit] at hnodup
      exact h.released hpos (List.nodup_cons.mp (List.nodup_append.mp hnodup).2.1).1
  | wokenTimer hpos =>
      exact h.move (by simp [TimerAt.due, hpos])
        (fun hc => Or.inl (by rw [hpos]; exact hc))
  | entered _ hwork => exact h.entered hwork
  | slept _ hent hdone => exact h.moved (Or.inl hent) (Or.inr rfl) fun _ => hdone
  | returned _ hent hdone => exact h.returns hent hdone
  | woken hasleep => exact h.moved (Or.inr hasleep) (Or.inl rfl) (by simp)
  | detached _ hwork => exact h.detached hwork
  | stop => exact ⟨h.fsh_iff, h.working, h.inSlot, h.asleep, h.due, h.collected⟩

/-! ## What the timer knows -/

/-- A device sets one of its flags and signals. -/
theorem TimerOk.signal (h : TimerOk devList s) {x : D}
    (htimer : s'.timer = s.timer.signal x)
    (hmono : ∀ d, s.fsh d = true → s'.fsh d = true)
    (hother : ∀ d, d ≠ x → s'.done d = s.done d ∧ s'.fsh d = s.fsh d) :
    TimerOk devList s' := by
  unfold TimerOk at h ⊢
  rw [htimer]
  cases hpos : s.timer with
  | collect temp fsh event =>
      rw [hpos] at h
      obtain ⟨pre, hsplit, hevent, hle, hall⟩ := h
      exact ⟨pre, hsplit, hevent, hle, fun he d hd => hmono d (hall he d hd)⟩
  | waiting temp fsh event =>
      rw [hpos] at h
      obtain ⟨pre, d, rest, hsplit, rfl, hevent, hle, hall, hdone, hfsh⟩ := h
      have hall' : fsh = event → ∀ d ∈ pre, s'.fsh d = true :=
        fun he d hd => hmono d (hall he d hd)
      by_cases hdx : d = x
      · simp only [TimerAt.signal, if_pos hdx]
        exact ⟨pre, hsplit, hevent, hle, hall'⟩
      · simp only [TimerAt.signal, if_neg hdx]
        refine ⟨pre, d, rest, hsplit, rfl, hevent, hle, hall', ?_, ?_⟩
        · rw [(hother d hdx).1, hdone]
        · rw [(hother d hdx).2, hfsh]
  | release temp fsh event =>
      rw [hpos] at h
      obtain ⟨pre, hsplit, hevent, hall⟩ := h
      exact ⟨pre, hsplit, hevent, fun he d hd => hmono d (hall he d hd)⟩
  | left =>
      rw [hpos] at h
      exact fun d hd => hmono d (h d hd)
  | loop => trivial
  | stopped => trivial

omit [DecidableEq D] in
/-- The first walk has counted one more device. -/
theorem TimerOk.counted (h : TimerOk devList s) {d : D} {temp : List D}
    {fsh event : Nat} (hpos : s.timer = .collect (d :: temp) fsh event) :
    TimerOk devList { s with
      timer := .collect temp (if s.fsh d then fsh + 1 else fsh) (event + 1) } := by
  unfold TimerOk at h
  rw [hpos] at h
  obtain ⟨pre, hsplit, hevent, hle, hall⟩ := h
  refine ⟨pre ++ [d], by simp [hsplit], by simp [hevent], ?_, ?_⟩
  · split <;> omega
  · intro heq x hx
    split at heq
    · rename_i hfsh
      rcases List.mem_append.mp hx with hx | hx
      · exact hall (by omega) x hx
      · rw [List.mem_singleton.mp hx]
        exact hfsh
    · omega

/-- Every section keeps what the timer knows. -/
theorem timerOk_step (h : TimerOk devList s) {a : Act D}
    (hstep : TimerStep devList s a s') : TimerOk devList s' := by
  have hcopy := h
  unfold TimerOk at hcopy
  cases hstep with
  | stopped => trivial
  | begun => exact ⟨[], rfl, rfl, Nat.le_refl 0, by simp⟩
  | advanced hpos =>
      rw [hpos] at hcopy
      obtain ⟨pre, hsplit, hevent, -, hall⟩ := hcopy
      rw [List.append_nil] at hsplit
      refine ⟨[], rfl, ?_, ?_⟩
      · rw [hsplit, hevent]
      · rw [hsplit]
        exact hall
  | counted hpos => exact h.counted hpos
  | @waits d temp fsh event hpos hdone hfsh =>
      rw [hpos] at hcopy
      obtain ⟨pre, hsplit, hevent, hle, hall⟩ := hcopy
      exact ⟨pre, d, temp, hsplit, rfl, hevent, hle, hall, hdone, hfsh⟩
  | left hpos heq =>
      rw [hpos] at hcopy
      obtain ⟨-, -, -, hall⟩ := hcopy
      exact hall heq
  | again => trivial
  | @released d temp fsh event hpos =>
      rw [hpos] at hcopy
      obtain ⟨pre, hsplit, hevent, hall⟩ := hcopy
      exact ⟨pre ++ [d], by simp [hsplit], hevent, hall⟩
  | wokenTimer hpos =>
      rw [hpos] at hcopy
      obtain ⟨pre, -, -, hsplit, -, hevent, hle, hall, -, -⟩ := hcopy
      exact ⟨pre, hsplit, hevent, hle, hall⟩
  | @entered x =>
      apply h.signal (x := x)
      · rfl
      · exact fun d hd => hd
      · intro d hdx
        exact ⟨Function.update_of_ne hdx _ _, rfl⟩
  | slept => exact h
  | returned => exact h
  | woken => exact h
  | @detached x =>
      apply h.signal (x := x)
      · rfl
      · intro d hd
        by_cases hdx : d = x
        · simp [hdx]
        · simp [hdx, hd]
      · intro d hdx
        exact ⟨rfl, Function.update_of_ne hdx _ _⟩
  | stop => exact h

/-! ## Every run -/

/-- The invariant of the whole system. -/
structure LockStep (devList : List D) (s : State D) : Prop where
  timerOk : TimerOk devList s
  deviceOk : ∀ d ∈ devList, DeviceOk s d

/-- The invariant holds in every reachable state. -/
theorem LockStep.of_run (hnodup : devList.Nodup) {es : List (Act D)}
    (h : Lts.Run (Step devList) start es s) : LockStep devList s := by
  apply h.invariant
  · exact ⟨timerOk_start devList, fun d _ => deviceOk_start d⟩
  · intro t a u hI hstep
    have hcases := timerStep_of_step hstep
    exact ⟨timerOk_step hI.timerOk hcases,
      fun d hd => deviceOk_step hd hnodup hI.timerOk (hI.deviceOk d hd) hcases⟩

omit [DecidableEq D] in
/-- An attached device is in the current slot or has just to leave the previous
one. -/
theorem DeviceOk.slot {d : D} (h : DeviceOk s d) (hdev : s.dev d ≠ .detached) :
    s.returned d ≤ s.time ∧ s.time ≤ s.returned d + 1 := by
  have hin : s.dev d = .entered ∨ s.dev d = .asleep →
      s.returned d ≤ s.time ∧ s.time ≤ s.returned d + 1 := by
    intro hin
    rcases h.inSlot hin with ⟨-, -, hr⟩ | ⟨-, -, hr⟩ | ⟨-, -, hr⟩ <;> omega
  cases hpos : s.dev d with
  | working =>
      have hr := (h.working hpos).2
      omega
  | entered => exact hin (Or.inl hpos)
  | asleep => exact hin (Or.inr hpos)
  | detached => exact absurd hpos hdev

omit [DecidableEq D] in
/-- A device that the first walk has passed has detached or waits for the end of
the current slot. -/
theorem DeviceOk.waits {d : D} (h : DeviceOk s d) (hcol : s.timer.collected d)
    (hnotdue : ¬ s.timer.due d) :
    s.dev d = .detached ∨
      (s.dev d = .entered ∨ s.dev d = .asleep) ∧ s.returned d = s.time := by
  obtain ⟨hwork, hdone⟩ := h.collected hcol
  have hin : s.dev d ≠ .detached → s.dev d = .entered ∨ s.dev d = .asleep →
      s.returned d = s.time := by
    intro hdet hin
    rcases h.inSlot hin with ⟨-, -, hr⟩ | ⟨hdue, -, -⟩ | ⟨-, hnot, -⟩
    · exact hr
    · exact absurd hdue hnotdue
    · rw [hdone hdet] at hnot
      cases hnot
  cases hpos : s.dev d with
  | working => exact absurd hpos hwork
  | entered => exact Or.inr ⟨Or.inl rfl, hin (by simp [hpos]) (Or.inl hpos)⟩
  | asleep => exact Or.inr ⟨Or.inr rfl, hin (by simp [hpos]) (Or.inr hpos)⟩
  | detached => exact Or.inl rfl

omit [DecidableEq D] in
/-- A device whose slot is over is about to be released, or it has been released
and is awake. -/
theorem DeviceOk.release_due {d : D} (h : DeviceOk s d)
    (hin : s.dev d = .entered ∨ s.dev d = .asleep)
    (hover : s.returned d + 1 = s.time) :
    s.timer.due d ∨ s.done d = false ∧ s.dev d = .entered := by
  rcases h.inSlot hin with ⟨-, -, hr⟩ | ⟨hdue, -, -⟩ | ⟨-, hnot, -⟩
  · omega
  · exact Or.inl hdue
  · rcases hin with hin | hin
    · exact Or.inr ⟨hnot, hin⟩
    · rw [h.asleep hin] at hnot
      cases hnot

/-! ## What a step does to a device -/

/-- The thread of a device stays where it is, or is woken up. -/
def DevAt.Wakes (a b : DevAt) : Prop :=
  b = a ∨ a = .asleep ∧ b = .entered

/-- A signal wakes a device up, or does nothing. -/
theorem DevAt.wakes_signal (a : DevAt) : a.Wakes a.signal := by
  cases a <;> simp [DevAt.Wakes, DevAt.signal]

/-- Only its own sections move a device, apart from waking it up. -/
theorem dev_step (e : D) {a : Act D} (hstep : step devList s a = some s') :
    (s.dev e).Wakes (s'.dev e) ∨ a = .enter e ∨ a = .check e ∨ a = .detach e := by
  have hother : ∀ x b, e ≠ x → (s.dev e).Wakes (Function.update s.dev x b e) :=
    fun x b hex => Or.inl (Function.update_of_ne hex _ _)
  cases timerStep_of_step hstep with
  | @released d temp fsh event hpos =>
      left
      by_cases hed : e = d
      · subst hed
        simpa using DevAt.wakes_signal (s.dev e)
      · exact hother d _ hed
  | @entered x =>
      by_cases hex : e = x
      · exact Or.inr (Or.inl (by rw [hex]))
      · exact Or.inl (hother x _ hex)
  | @slept x =>
      by_cases hex : e = x
      · exact Or.inr (Or.inr (Or.inl (by rw [hex])))
      · exact Or.inl (hother x _ hex)
  | @returned x =>
      by_cases hex : e = x
      · exact Or.inr (Or.inr (Or.inl (by rw [hex])))
      · exact Or.inl (hother x _ hex)
  | @woken x hasleep =>
      left
      by_cases hex : e = x
      · subst hex
        exact Or.inr ⟨hasleep, Function.update_self _ _ _⟩
      · exact hother x _ hex
  | @detached x =>
      by_cases hex : e = x
      · exact Or.inr (Or.inr (Or.inr (by rw [hex])))
      · exact Or.inl (hother x _ hex)
  | stopped | begun | advanced | counted | waits | left | again | wokenTimer | stop =>
      exact Or.inl (Or.inl rfl)

/-- What a device does itself changes no other device, but that it wakes up. -/
theorem dev_step_other {d e : D} {a : Act D} (ha : a = .enter d ∨ a = .check d ∨ a = .detach d)
    (hstep : step devList s a = some s') (hed : e ≠ d) : (s.dev e).Wakes (s'.dev e) := by
  rcases dev_step e hstep with hwakes | hown | hown | hown
  · exact hwakes
  all_goals
    subst hown
    simp [hed] at ha

/-- A device that has entered `next_slot`. -/
theorem dev_enter {d : D} (hstep : step devList s (.enter d) = some s') :
    s'.dev d = .entered := by
  cases timerStep_of_step hstep with
  | entered => exact Function.update_self _ _ _

/-- A device that has looked at `fsh` goes on or sleeps. -/
theorem dev_check {d : D} (hstep : step devList s (.check d) = some s') :
    s'.dev d = .working ∨ s'.dev d = .asleep := by
  cases timerStep_of_step hstep with
  | slept => exact Or.inr (Function.update_self _ _ _)
  | returned => exact Or.inl (Function.update_self _ _ _)

/-- A device that has detached. -/
theorem dev_detach {d : D} (hstep : step devList s (.detach d) = some s') :
    s'.dev d = .detached := by
  cases timerStep_of_step hstep with
  | detached => exact Function.update_self _ _ _

/-- While some device works in the current slot, `_time` does not advance, and a
device that is not behind cannot return from `next_slot`. -/
theorem slot_open {d e : D} (hI : LockStep devList s) (hd : d ∈ devList)
    (he : e ∈ devList) (hwork : s.dev e = .working)
    (hopen : s.returned d = s.time) {a : Act D}
    (hstep : step devList s a = some s') :
    s'.returned d = s'.time ∧ (a = .check d → s'.dev d = .asleep) := by
  cases timerStep_of_step hstep with
  | advanced hpos =>
      -- `_time++` needs every device to wait
      have hcol : s.timer.collected e := by simp [TimerAt.collected, hpos]
      exact absurd hwork ((hI.deviceOk e he).collected hcol).1
  | slept =>
      refine ⟨hopen, ?_⟩
      rintro ⟨⟩
      exact Function.update_self _ _ _
  | @returned x hmem hent hdone =>
      have hdx : d ≠ x := by
        rintro rfl
        rcases (hI.deviceOk d hd).inSlot (Or.inl hent) with
          ⟨-, htrue, -⟩ | ⟨-, htrue, -⟩ | ⟨-, -, hr⟩
        · exact absurd (htrue.symm.trans hdone) (by simp)
        · exact absurd (htrue.symm.trans hdone) (by simp)
        · omega
      refine ⟨(Function.update_of_ne hdx _ _).trans hopen, ?_⟩
      rintro ⟨⟩
      exact absurd rfl hdx
  | stopped | begun | counted | waits | left | again | released | wokenTimer | entered
    | woken | detached | stop =>
      exact ⟨hopen, by simp⟩

/-! ## Lock-step -/

/-- In every reachable state the devices are in lock-step with `_time`: an
attached device has returned from `_time` or from `_time - 1` calls of
`next_slot`, no two of them are more than one slot apart, `_time` only advances
when every attached device waits for the end of the current slot, a device whose
slot is over is not left asleep, and the `fsh == event` test succeeds only after
every device has detached. -/
theorem lock_step (hnodup : devList.Nodup) {es : List (Act D)}
    (h : Lts.Run (Step devList) start es s) :
    (∀ d ∈ devList, s.dev d ≠ .detached →
      s.returned d ≤ s.time ∧ s.time ≤ s.returned d + 1) ∧
    (∀ d ∈ devList, ∀ e ∈ devList, s.dev d ≠ .detached → s.dev e ≠ .detached →
      s.returned d ≤ s.returned e + 1) ∧
    (∀ fsh event, s.timer = .collect [] fsh event → ∀ d ∈ devList,
      s.dev d = .detached ∨
        (s.dev d = .entered ∨ s.dev d = .asleep) ∧ s.returned d = s.time) ∧
    (∀ d ∈ devList, s.dev d = .entered ∨ s.dev d = .asleep →
      s.returned d + 1 = s.time →
      (∃ temp fsh event, s.timer = .release temp fsh event ∧ d ∈ temp) ∨
        s.done d = false ∧ s.dev d = .entered) ∧
    (s.timer = .left → ∀ d ∈ devList, s.dev d = .detached) := by
  have hI := LockStep.of_run hnodup h
  refine ⟨fun d hd => (hI.deviceOk d hd).slot, ?_, ?_, ?_, ?_⟩
  · intro d hd e he hdev hdev'
    have hslot := (hI.deviceOk d hd).slot hdev
    have hslot' := (hI.deviceOk e he).slot hdev'
    omega
  · intro fsh event hpos d hd
    exact (hI.deviceOk d hd).waits (by simp [TimerAt.collected, hpos])
      (by simp [TimerAt.due, hpos])
  · intro d hd hin hover
    rcases (hI.deviceOk d hd).release_due hin hover with hdue | hawake
    · left
      unfold TimerAt.due at hdue
      split at hdue
      · rename_i temp fsh event hpos
        exact ⟨temp, fsh, event, hpos, hdue⟩
      · cases hdue
    · exact Or.inr hawake
  · intro hleft d hd
    have hall := hI.timerOk
    unfold TimerOk at hall
    rw [hleft] at hall
    exact (hI.deviceOk d hd).fsh_iff.mp (hall d hd)

/-- Two devices and a whole slot, in which the first device is released early and
re-enters `next_slot` before the second is released. -/
theorem lock_step_two_devices :
    ∃ s : State (Fin 2),
      Lts.exec (step [1, 0]) start
        [.tick, .tick, .enter 1, .check 1, .tick, .enter 0, .tick, .tick, .tick,
          .check 1, .enter 1, .check 0, .tick] = some s ∧
      (∀ d ∈ [1, 0], s.dev d ≠ .detached →
        s.returned d ≤ s.time ∧ s.time ≤ s.returned d + 1) ∧
      (∀ d ∈ [1, 0], ∀ e ∈ [1, 0], s.dev d ≠ .detached → s.dev e ≠ .detached →
        s.returned d ≤ s.returned e + 1) ∧
      (∀ fsh event, s.timer = .collect [] fsh event → ∀ d ∈ [1, 0],
        s.dev d = .detached ∨
          (s.dev d = .entered ∨ s.dev d = .asleep) ∧ s.returned d = s.time) ∧
      (∀ d ∈ [1, 0], s.dev d = .entered ∨ s.dev d = .asleep →
        s.returned d + 1 = s.time →
        (∃ temp fsh event, s.timer = .release temp fsh event ∧ d ∈ temp) ∨
          s.done d = false ∧ s.dev d = .entered) ∧
      (s.timer = .left → ∀ d ∈ [1, 0], s.dev d = .detached) := by
  have hdef : (Lts.exec (step [1, 0]) (start : State (Fin 2))
      [.tick, .tick, .enter 1, .check 1, .tick, .enter 0, .tick, .tick, .tick,
        .check 1, .enter 1, .check 0, .tick]).isSome = true := by
    decide +kernel
  obtain ⟨s, hs⟩ := Option.isSome_iff_exists.mp hdef
  exact ⟨s, hs, lock_step (by decide) (Lts.exec_run hs)⟩

end Timer
end Hdh
