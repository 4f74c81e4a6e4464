import Hdh.Os.Makespan
import Hdh.Os.Priority

/-!
# Response times

How long it takes from the `add_proc` of a process to the end of its program depends on the
processes of its level and of the levels before it, and on one time slice: a CPU that
executes a process of a later level asks again when the slice is used up.  From then on, and
as long as the process is not done, there is a CPU in every slot that executes it or a
process that goes before it.

Main results:

- Theorem `Near.cpuTurn`: a CPU asks for a process again within its time slice.
- Theorem `Served.step`: once a CPU serves the levels up to the one of a process, some CPU
  does so until the process is done.
- Theorem `Responds.step`: every slot is paid for.
- Theorem `response_time`: the number of slots that a process needs.
-/

namespace Hdh
namespace Os

open Sched

variable {n : Nat} {cfg : Config} {s s' : State n} {q : Nat}

/-! ## The time left of a CPU -/

/-- The time left of a CPU is part of the time slice, and less than it behind `run`. -/
structure InSlice (cfg : Config) (v : View) : Prop where
  le : v.left ≤ cfg.timeSlot
  ended : v.place = .enter ∨ v.place = .inSlot ∨ v.place = .detach → v.left < cfg.timeSlot

/-- Every step of a CPU keeps its time left in range. -/
theorem InSlice.step (hslot : 1 ≤ cfg.timeSlot) {es : List (Option (SliceEvent n))} {c : Fin n}
    {v v' : View} {e : Option (SliceEvent n)} (h : InSlice cfg v)
    (hok : SliceOk cfg s.pc es c v) (hstep : ViewStep cfg s c v e v') : InSlice cfg v' := by
  obtain ⟨hle, hended⟩ := h
  have hidle := hok.idle
  have hpos : 0 ≤ cfg.timeSlot := by omega
  cases hstep with
  | getNone t | leave t =>
      have hzero : t = 0 := hidle rfl (by simp)
      exact ⟨hle, fun _ => by simp only [hzero]; omega⟩
  | getFin => exact ⟨hpos, by simp⟩
  | dispatch => exact ⟨Int.le_refl _, by simp⟩
  | call p t =>
      simp only at hle
      exact ⟨by simp only; omega, fun _ => by simp only; omega⟩
  | pass proc t hat => exact ⟨hle, fun _ => hended hat⟩
  | idle | finish | expire | keep | getSome | put | getPut | resume => exact ⟨hle, by simp⟩

/-- What is known of every state of a simulation with strict priorities. -/
structure Urgent (cfg : Config) (s : State n) : Prop where
  sound : Sound cfg s
  processes : Processes cfg s
  watched : Watched s
  ranked : Ranked cfg s
  account : ∃ es, Accounted cfg es s
  inSlice : ∀ c, InSlice cfg (s.view c)

/-- The invariants hold in every reachable state. -/
theorem urgent_of_run (hn : 0 < n) (hnum : cfg.numProcesses ≤ maxQueueSize)
    (hslot : 1 ≤ cfg.timeSlot) {es : List (Act n)} (h : Lts.Run (Step cfg) boot es s) :
    Urgent cfg s := by
  have haccount : ∀ {es : List (Act n)} {t : State n}, Lts.Run (Step cfg) boot es t →
      ∃ evs, Accounted cfg evs t := by
    intro es t hrun
    obtain ⟨evs, hevs⟩ := sliceRun_of_run hrun
    exact ⟨evs, accounted_of_run hslot hevs⟩
  refine ⟨Sound.of_run h, placed_of_run hnum h, watched_of_run hn h, ranked_of_run h,
    haccount h, ?_⟩
  apply h.invariant_of (I := fun t => ∀ c, InSlice cfg (t.view c))
    (fun _ _ hrun => haccount hrun)
  · intro c
    have hpos : 0 ≤ cfg.timeSlot := by omega
    exact ⟨hpos, by simp [State.view, boot]⟩
  · rintro t a u ⟨evs, hacc⟩ hin hstep c
    by_cases ha : a = .cpu c
    · subst ha
      exact (hin c).step hslot (hacc.slice c) (view_step hstep)
    · rw [view_other ha hstep]
      exact hin c

/-! ## A level is served -/

/-- The CPU holds a process that goes before `q` or along with it, or is going to ask for one
with the next section. -/
def Engaged (cfg : Config) (q : Nat) (s : State n) (c : Fin n) : Prop :=
  (∃ p, s.sched.hold c = some p ∧ cfg.prio p ≤ cfg.prio q) ∨
    s.cpu c = .getFin ∨ s.cpu c = .getPut

/-- Some CPU serves the levels up to the one of `q`. -/
def Served (cfg : Config) (q : Nat) (s : State n) : Prop :=
  ∃ c, Engaged cfg q s c

/-- A CPU that asks while `q` is not done takes `q` or a process that goes before it, unless
another CPU holds `q`. -/
theorem served_of_get (hU : Urgent cfg s) (hlevels : cfg.Uncrowded) (hq : q < s.i)
    (hpc : s.pc q ≠ cfg.codeSize q) {c : Fin n} (hstep : Step cfg s (.cpu c) s')
    (hget : Dispatch.step cfg.fields s.sched (.getProc c) = some s'.sched) :
    Served cfg q s' := by
  have hidle := hold_of_getProc hget
  rcases hU.processes.placed q hq with hready | ⟨d, hd⟩ | hdone
  · cases Dispatch.moves_of_step hget with
    | idle _ hnil =>
        rw [hnil] at hready
        cases hready
    | @got _ p _ _ hhold =>
        have hgot : s'.sched.hold c = some p := by rw [hhold, Function.update_self]
        exact ⟨c, Or.inl ⟨p, hgot,
          first_of_get hU.sound hU.ranked hlevels hstep hidle hgot q hready⟩⟩
  · have hdc : d ≠ c := by
      rintro rfl
      rw [hidle] at hd
      cases hd
    have hother : s'.sched.hold d = s.sched.hold d :=
      congrArg View.proc (view_other (by simpa using hdc.symm) hstep)
    exact ⟨d, Or.inl ⟨q, hother.trans hd, Nat.le_refl _⟩⟩
  · exact absurd hdone hpc

/-- As long as `q` is not done, some CPU goes on serving the levels up to the one of `q`. -/
theorem Served.step (hU : Urgent cfg s) (hlevels : cfg.Uncrowded) (hq : q < s.i)
    (hpc : s.pc q ≠ cfg.codeSize q) (h : Served cfg q s) {a : Act n}
    (hstep : Step cfg s a s') : Served cfg q s' := by
  obtain ⟨c, hc⟩ := h
  by_cases ha : a = .cpu c
  · subst ha
    have hkeep : s'.sched.hold c = s.sched.hold c → s.cpu c ≠ .getFin → s.cpu c ≠ .getPut →
        Served cfg q s' := by
      intro hsame hfin hput
      obtain ⟨p, hp, hle⟩ := hc.resolve_right (by simp [hfin, hput])
      exact ⟨c, Or.inl ⟨p, hsame.trans hp, hle⟩⟩
    cases cpuTurn_of_cpuRoutine hstep with
    | finish => exact ⟨c, Or.inr (Or.inl (by simp [State.goCpu]))⟩
    | put => exact ⟨c, Or.inr (Or.inr (by simp [State.goCpu]))⟩
    | getIdle _ hd => exact served_of_get hU hlevels hq hpc hstep hd
    | getFin _ hd => exact served_of_get hU hlevels hq hpc hstep hd
    | getPut _ hd => exact served_of_get hU hlevels hq hpc hstep hd
    | exec hat => exact hkeep (by simp [State.goCpu]) (by simp [hat]) (by simp [hat])
    | idle hat | expire hat | keep hat | exit hat | skip hat | dispatch hat | resume hat
      | enter hat | nextSlot hat | detach hat =>
        exact hkeep rfl (by simp [hat]) (by simp [hat])
  · have hview := view_other ha hstep
    have hplace : s'.cpu c = s.cpu c := congrArg View.place hview
    have hhold : s'.sched.hold c = s.sched.hold c := congrArg View.proc hview
    refine ⟨c, ?_⟩
    simpa only [Engaged, hplace, hhold] using hc

/-! ## A CPU that is going to ask -/

/-- The CPU asks for a process within `k` slots, or before if its process comes to an end. -/
def Near (cfg : Config) (s : State n) (c : Fin n) (k : Nat) : Prop :=
  match s.cpu c with
  | .top => s.timeLeft c ≤ k
  | .recheck =>
      match s.sched.hold c with
      | none => SlotOpen s ∧ 1 ≤ k
      | some _ => s.timeLeft c ≤ k ∧ (s.timeLeft c = 0 → cfg.timeSlot ≤ k)
  | .exec => s.timeLeft c ≤ k
  | .enter => s.timeLeft c + 1 ≤ k
  | .inSlot => s.timeLeft c + (!s.timer.behind (some c)).toNat ≤ k
  | .detach => False
  | .stopped => False
  | _ => True

/-- A turn of the CPU brings it nearer, or it serves the levels. -/
theorem Near.cpuTurn (hU : Urgent cfg s) (hlevels : cfg.Uncrowded) (hq : q < s.i)
    (hpc : s.pc q ≠ cfg.codeSize q) {c : Fin n} {k : Nat} (h : Near cfg s c k)
    (hstep : Step cfg s (.cpu c) s') : Served cfg q s' ∨ Near cfg s' c k := by
  obtain ⟨evs, hacc⟩ := hU.account
  have hidle := (hacc.slice c).idle
  unfold Near at h
  cases cpuTurn_of_cpuRoutine hstep with
  | idle => exact Or.inr (by simp [Near, State.goCpu])
  | finish => exact Or.inl ⟨c, Or.inr (Or.inl (by simp [State.goCpu]))⟩
  | expire => exact Or.inr (by simp [Near, State.goCpu])
  | keep hat hhold _ hleft =>
      rw [hat] at h
      exact Or.inr (by simpa [Near, State.goCpu, hhold, hleft] using h)
  | getIdle _ hd => exact Or.inl (served_of_get hU hlevels hq hpc hstep hd)
  | getFin _ hd => exact Or.inl (served_of_get hU hlevels hq hpc hstep hd)
  | getPut _ hd => exact Or.inl (served_of_get hU hlevels hq hpc hstep hd)
  | put => exact Or.inl ⟨c, Or.inr (Or.inr (by simp [State.goCpu]))⟩
  | exit hat hhold hdone =>
      -- the loader is still in the slot of its `add_proc`
      simp only [hat, hhold] at h
      exact absurd hdone (h.1.not_done hU.sound.linked)
  | skip hat hhold =>
      simp only [hat, hhold] at h
      have hzero : s.timeLeft c = 0 := hidle hhold (by simp [State.view, hat])
      right
      simp only [Near, State.goCpu, Function.update_self, hzero]
      omega
  | dispatch hat hhold hleft =>
      simp only [hat, hhold] at h
      exact Or.inr (by simpa [Near, State.goCpu] using h.2 hleft)
  | resume hat hhold =>
      simp only [hat, hhold] at h
      exact Or.inr (by simpa [Near, State.goCpu] using h.1)
  | exec hat =>
      simp only [hat] at h
      exact Or.inr (by simpa [Near, State.goCpu, timeLeft_run] using h)
  | @enter t hat ht =>
      simp only [hat] at h
      right
      have hle : (!t.behind (some c)).toNat ≤ 1 := Bool.toNat_le _
      simp only [Near, State.goCpu, Function.update_self]
      omega
  | nextSlot hat ht =>
      simp only [hat] at h
      right
      rcases Timer.behind_check hU.sound.timer ht with ⟨hwork, hbehind⟩ | ⟨hwork, hbehind⟩
      · simpa [Near, State.goCpu, hwork, hbehind] using h
      · simpa [Near, State.goCpu, hwork, hbehind] using h
  | detach hat =>
      simp [hat] at h

/-- The other threads do not keep a CPU from asking. -/
theorem Near.other (hU : Urgent cfg s) {c : Fin n} {k : Nat} (h : Near cfg s c k)
    {a : Act n} (ha : a ≠ .cpu c) (hstep : Step cfg s a s')
    (htime : s'.timer.time = s.timer.time) : Near cfg s' c k := by
  have hview := view_other ha hstep
  have hplace : s'.cpu c = s.cpu c := congrArg View.place hview
  have hhold : s'.sched.hold c = s.sched.hold c := congrArg View.proc hview
  have hleft : s'.timeLeft c = s.timeLeft c := congrArg View.left hview
  have hbehind := behind_other (d := some c) ha hstep htime
  unfold Near at h ⊢
  rw [hplace, hhold, hleft, hbehind]
  cases hat : s.cpu c with
  | recheck =>
      rw [hat] at h
      cases hheld : s.sched.hold c with
      | none =>
          simp only [hheld] at h ⊢
          exact ⟨slotOpen_step hU.sound.timer hU.sound.linked h.1 hat hstep, h.2⟩
      | some p => simpa only [hheld] using h
  | top | exec | enter | inSlot => simpa only [hat] using h
  | detach | stopped => simp [hat] at h
  | getIdle | getFin | put | getPut => trivial

/-- When `_time` advances, a CPU has one slot less until it asks. -/
theorem Near.advance (hU : Urgent cfg s) {c : Fin n} {k : Nat} (h : Near cfg s c k)
    {t : Timer.State (Device n)} (ht : Timer.Step (devList n) s.timer .tick t)
    (htime : t.time ≠ s.timer.time) :
    1 ≤ k ∧ Near cfg { s with timer := t } c (k - 1) := by
  obtain ⟨evs, hacc⟩ := hU.account
  have hnonneg : 0 ≤ s.timeLeft c := (hacc.slice c).nonneg
  unfold Near at h
  rcases cpu_of_advance hU.sound ht htime c with hat | ⟨hat, hbehind, hafter⟩
  · simp [hat] at h
  · simp only [hat, hbehind, Bool.not_false, Bool.toNat_true] at h
    refine ⟨by omega, ?_⟩
    simp only [Near, hat, hafter, Bool.not_true, Bool.toNat_false]
    omega

/-- A CPU that is going to ask when `q` is ready. -/
theorem near_of_ready (hslot : 1 ≤ cfg.timeSlot) (hU : Urgent cfg s)
    (hready : q ∈ s.sched.mlq.ready) : ∃ c, Near cfg s c cfg.timeSlot.toNat := by
  have hcast : (cfg.timeSlot.toNat : Int) = cfg.timeSlot := Int.toNat_of_nonneg (by omega)
  rcases hU.watched.ready (List.ne_nil_of_mem hready) with ⟨c, hc⟩ | ⟨hopen, c, hat⟩
  · have hle : s.timeLeft c ≤ cfg.timeSlot := (hU.inSlice c).le
    have hended : s.cpu c = .enter ∨ s.cpu c = .inSlot ∨ s.cpu c = .detach →
        s.timeLeft c < cfg.timeSlot := (hU.inSlice c).ended
    refine ⟨c, ?_⟩
    unfold Quits at hc
    unfold Near
    cases hat : s.cpu c with
    | detach | stopped => simp [hat] at hc
    | top | exec => simpa [hcast] using hle
    | recheck =>
        cases hheld : s.sched.hold c with
        | none => simp [hat, hheld] at hc
        | some p => simpa [hcast] using hle
    | enter =>
        have hlt := hended (Or.inl hat)
        simp only [hcast]
        omega
    | inSlot =>
        have hlt := hended (Or.inr (Or.inl hat))
        have hone : (!s.timer.behind (some c)).toNat ≤ 1 := Bool.toNat_le _
        simp only [hcast]
        omega
    | getIdle | getFin | put | getPut => trivial
  · refine ⟨c, ?_⟩
    have hle : s.timeLeft c ≤ cfg.timeSlot := (hU.inSlice c).le
    unfold Near
    rw [hat]
    cases hheld : s.sched.hold c with
    | none => exact ⟨hopen, by omega⟩
    | some p => simpa [hcast] using hle

/-! ## The account of the slots -/

/-- The processes of the level of `q` and of the levels before it. -/
def Config.upTo (cfg : Config) (q : Nat) : Nat → Bool :=
  fun p => decide (cfg.prio p ≤ cfg.prio q)

/-- 1 when `run` has been called on one of these processes in the current slot. -/
def State.spentFor (cfg : Config) (q : Nat) (s : State n) : Nat :=
  if ∃ c p, s.sched.hold c = some p ∧ cfg.prio p ≤ cfg.prio q ∧ s.ran c = 1 then 1 else 0

/-- A slot is spent once. -/
theorem spentFor_le_one (cfg : Config) (q : Nat) (s : State n) : s.spentFor cfg q ≤ 1 := by
  unfold State.spentFor
  split_ifs <;> omega

/-- It has not been spent when no CPU serves the levels. -/
theorem spentFor_of_not_served (h : ¬ Served cfg q s) : s.spentFor cfg q = 0 := by
  rw [State.spentFor, if_neg]
  rintro ⟨c, p, hheld, hle, -⟩
  exact h ⟨c, Or.inl ⟨p, hheld, hle⟩⟩

/-- A slot that has been paid for has been paid for before, or is paid for by this call. -/
theorem spentFor_step (hS : Sound cfg s) {a : Act n} (hstep : Step cfg s a s')
    (htime : s'.timer.time = s.timer.time) (hpaid : s'.spentFor cfg q = 1) :
    s.spentFor cfg q = 1 ∨ SliceEvent.callsIn (cfg.upTo q) (visible cfg s a) = true ∧
      Served cfg q s := by
  have hex : ∃ c p, s'.sched.hold c = some p ∧ cfg.prio p ≤ cfg.prio q ∧ s'.ran c = 1 := by
    by_contra hnot
    rw [State.spentFor, if_neg hnot] at hpaid
    cases hpaid
  obtain ⟨c, p, hheld, hle, hran⟩ := hex
  rcases ran_of_step hS hstep htime (by simp [hheld]) hran with ⟨r, hcall⟩ | ⟨-, hold⟩
  · right
    obtain ⟨rfl, -, hr⟩ := visible_call hcall
    rw [(sched_of_call hstep hcall).1] at hheld
    obtain rfl := Option.some_inj.mp (hr.symm.trans hheld)
    refine ⟨?_, c, Or.inl ⟨r, hr, hle⟩⟩
    rw [hcall]
    exact decide_eq_true hle
  · left
    rw [hold_of_ran hold hstep] at hheld
    rw [State.spentFor, if_pos ⟨c, p, hheld, hle, hold⟩]

/-- No slot ends without a call for `q` while the levels up to its own are served. -/
theorem Served.paid (hS : Sound cfg s) (h : Served cfg q s) {t : Timer.State (Device n)}
    (ht : Timer.Step (devList n) s.timer .tick t) (htime : t.time ≠ s.timer.time) :
    s.spentFor cfg q = 1 := by
  obtain ⟨c, hc⟩ := h
  rcases cpu_of_advance hS ht htime c with hat | ⟨hat, hbehind, -⟩
  · have hnone := (hS.linked.gone c (Or.inr hat)).1
    simp [Engaged, hat, hnone] at hc
  · obtain ⟨p, hp, hle⟩ := hc.resolve_right (by simp [hat])
    rw [State.spentFor, if_pos ⟨c, p, hp, hle, by simp [State.ran, hat, CpuAt.ended, hbehind]⟩]

/-- `q` is done, every slot since it is served has been paid for, or a CPU is going to ask
before the limit `T`. -/
def Responds (cfg : Config) (q T : Nat) (es : List (Option (SliceEvent n))) (s : State n) :
    Prop :=
  s.pc q = cfg.codeSize q ∨
    Served cfg q s ∧ s.timer.time + s.spentFor cfg q ≤
      T + es.countP (SliceEvent.callsIn (cfg.upTo q)) ∨
    ¬ Served cfg q s ∧ ∃ c k, Near cfg s c k ∧ s.timer.time + k ≤ T

/-- Before the time advances. -/
theorem Responds.within (hU : Urgent cfg s) (hlevels : cfg.Uncrowded) (hq : q < s.i)
    {T : Nat} {es : List (Option (SliceEvent n))} (h : Responds cfg q T es s) {a : Act n}
    (hstep : Step cfg s a s') (htime : s'.timer.time = s.timer.time) :
    Responds cfg q T (es ++ [visible cfg s a]) s' := by
  by_cases hdone : s.pc q = cfg.codeSize q
  · left
    rcases pc_step hstep q with hsame | ⟨c, -, hlt, -⟩
    · exact hsame.trans hdone
    · omega
  have hle := spentFor_le_one cfg q s'
  right
  rcases h.resolve_left hdone with ⟨hserved, hpaid⟩ | ⟨hnot, c, k, hnear, hk⟩
  · refine Or.inl ⟨hserved.step hU hlevels hq hdone hstep, ?_⟩
    rw [List.countP_append, List.countP_singleton, htime]
    rcases Nat.le_one_iff_eq_zero_or_eq_one.mp hle with hzero | hone
    · omega
    · rcases spentFor_step hU.sound hstep htime hone with hbefore | ⟨hcall, -⟩
      · omega
      · rw [if_pos hcall, hone]
        omega
  · have hzero : s'.spentFor cfg q = 0 := by
      by_contra hne
      have hone : s'.spentFor cfg q = 1 := by omega
      rcases spentFor_step hU.sound hstep htime hone with hbefore | ⟨-, hserved⟩
      · rw [spentFor_of_not_served hnot] at hbefore
        cases hbefore
      · exact hnot hserved
    by_cases hserved : Served cfg q s'
    · exact Or.inl ⟨hserved, by omega⟩
    · refine Or.inr ⟨hserved, c, k, ?_, by omega⟩
      by_cases ha : a = .cpu c
      · subst ha
        exact (hnear.cpuTurn hU hlevels hq hdone hstep).resolve_left hserved
      · exact hnear.other hU ha hstep htime

/-- Every step keeps the account of the process. -/
theorem Responds.step (hU : Urgent cfg s) (hlevels : cfg.Uncrowded) (hq : q < s.i)
    {T : Nat} {es : List (Option (SliceEvent n))} (h : Responds cfg q T es s)
    {e : Option (SliceEvent n)} (hstep : SliceStep cfg s e s') :
    Responds cfg q T (es ++ [e]) s' := by
  obtain ⟨a, hact, rfl⟩ := hstep
  by_cases htime : s'.timer.time = s.timer.time
  · exact h.within hU hlevels hq hact htime
  · obtain ⟨t, ht, rfl⟩ := tick_of_time hact htime
    have hone := ((Timer.time_step ht).resolve_left htime).2
    rcases h with hdone | ⟨hserved, hpaid⟩ | ⟨hnot, c, k, hnear, hk⟩
    · exact Or.inl hdone
    · have hspent := hserved.paid hU.sound ht htime
      have hzero : ({ s with timer := t } : State n).spentFor cfg q = 0 := by
        rw [State.spentFor, if_neg]
        rintro ⟨c, p, -, -, hran⟩
        rw [ran_of_advance hU.sound ht htime c] at hran
        cases hran
      refine Or.inr (Or.inl ⟨hserved, ?_⟩)
      rw [hzero, List.countP_append]
      simp only [hone]
      omega
    · obtain ⟨hpos, hnext⟩ := hnear.advance hU ht htime
      refine Or.inr (Or.inr ⟨hnot, c, k - 1, hnext, ?_⟩)
      simp only [hone]
      omega

/-! ## Every run -/

/-- The slots that `q` needs from its `add_proc` on: a time slice, and one slot for each
instruction of the processes of its level and of the levels before it. -/
def Config.responseSlots (cfg : Config) (q : Nat) : Nat :=
  cfg.timeSlot.toNat + cfg.callsForAll (cfg.upTo q)

/-- When more than `responseSlots` slots have passed since `q` was in the scheduler, `q` is
done. -/
theorem done_of_response (hn : 0 < n) (hnum : cfg.numProcesses ≤ maxQueueSize)
    (hlevels : cfg.Uncrowded) (hslot : 1 ≤ cfg.timeSlot) {as : List (Act n)}
    (hstart : Lts.Run (Step cfg) boot as s) (hq : q < s.i) {bs : List (Act n)} {t : State n}
    (hrun : Lts.Run (Step cfg) s bs t)
    (hlong : s.timer.time + cfg.responseSlots q < t.timer.time) :
    t.pc q = cfg.codeSize q := by
  obtain ⟨es₀, hes₀⟩ := sliceRun_of_run hstart
  obtain ⟨es, hes⟩ := sliceRun_of_run hrun
  -- the process stays loaded, and the invariants hold on from `s`
  have hknown : ∀ (fs : List (Option (SliceEvent n))) (u : State n),
      Lts.Run (SliceStep cfg) s fs u → Urgent cfg u ∧ q < u.i := by
    intro fs u hu
    obtain ⟨cs, hcs⟩ := run_of_sliceRun hu
    refine ⟨urgent_of_run hn hnum hslot (hstart.trans hcs), ?_⟩
    apply hcs.invariant (I := fun u => q < u.i) hq
    intro u a v hlt hstep
    rcases i_step hstep with hi | ⟨-, hi⟩ <;> omega
  have hbegin : Responds cfg q (s.timer.time + cfg.timeSlot.toNat) [] s := by
    have hU := (hknown [] s Lts.Run.nil).1
    have hle := spentFor_le_one cfg q s
    by_cases hserved : Served cfg q s
    · refine Or.inr (Or.inl ⟨hserved, ?_⟩)
      rw [List.countP_nil]
      omega
    · rcases hU.processes.placed q hq with hready | ⟨d, hd⟩ | hdone
      · obtain ⟨c, hc⟩ := near_of_ready hslot hU hready
        exact Or.inr (Or.inr ⟨hserved, c, _, hc, Nat.le_refl _⟩)
      · exact absurd ⟨d, Or.inl ⟨q, hd, Nat.le_refl _⟩⟩ hserved
      · exact Or.inl hdone
  have hresponds := hes.history_of hknown hbegin
    fun _ _ _ _ hJ hR hstep => hR.step hJ.1 hlevels hJ.2 hstep
  have hcalls : es.countP (SliceEvent.callsIn (cfg.upTo q)) ≤ cfg.callsForAll (cfg.upTo q) := by
    have hall := countP_callsIn_le (hes₀.trans hes) (cfg.upTo q)
    rw [List.countP_append] at hall
    omega
  unfold Config.responseSlots at hlong
  rcases hresponds with hdone | ⟨-, hpaid⟩ | ⟨-, c, k, -, hk⟩
  · exact hdone
  · omega
  · omega

/-- The loader adds a process without a step of the timer. -/
theorem timer_of_add {a : Act n} (hstep : Step cfg s a s') (hi : s'.i ≠ s.i) :
    s.ld = .add ∧ s'.timer = s.timer := by
  cases osStep_of_step hstep with
  | cpu hcpu => exact absurd hcpu.frame.i hi
  | timer => exact absurd rfl hi
  | ld hld =>
      cases hld with
      | add hat => exact ⟨hat, rfl⟩
      | _ => exact absurd rfl hi

/-- `q` is added at most one slot for each process before it after the last of their start
times and of its own. -/
theorem added_in_time {last : Nat} (hq : q < cfg.numProcesses)
    (hlast : ∀ p ≤ q, cfg.startTime p ≤ last) {as : List (Act n)} {t : State n}
    (hrun : Lts.Run (Step cfg) boot as t) :
    t.timer.time ≤ last + q ∨ ∃ (bs cs : List (Act n)) (s : State n),
      Lts.Run (Step cfg) boot bs s ∧ Lts.Run (Step cfg) s cs t ∧ q < s.i ∧
        s.timer.time ≤ last + q := by
  suffices h : (t.i ≤ q ∧ Loading last t) ∨ ∃ (bs cs : List (Act n)) (s : State n),
      Lts.Run (Step cfg) boot bs s ∧ Lts.Run (Step cfg) s cs t ∧ q < s.i ∧
        s.timer.time ≤ last + q by
    refine h.imp_left ?_
    rintro ⟨hi, hloading⟩
    have hle := hloading.time_le (Sound.of_run hrun) (Or.inl (by omega))
    omega
  induction hrun with
  | nil => exact Or.inl ⟨Nat.zero_le q, loading_boot last⟩
  | @snoc as a t u hrun hstep ih =>
      rcases ih with ⟨hi, hloading⟩ | ⟨bs, cs, s, hbs, hcs, hlt, htime⟩
      · by_cases hi' : u.i ≤ q
        · exact Or.inl ⟨hi', hloading.step (Sound.of_run hrun) (fun _ => hlast t.i hi) hstep⟩
        · -- this is the `add_proc` of `q`
          refine Or.inr ⟨_, [], u, hrun.snoc hstep, Lts.Run.nil, Nat.not_le.mp hi', ?_⟩
          obtain ⟨hat, htimer⟩ := timer_of_add hstep (by omega)
          simp only [Loading, hat] at hloading
          rw [htimer]
          omega
      · exact Or.inr ⟨bs, _, s, hbs, hcs.snoc hstep, hlt, htime⟩

/-- Response times.  When more than `responseSlots` slots have passed since a process was in
the scheduler, it has executed its whole program, on any number of CPUs, whatever the
processes of the later levels are and whatever the interleaving.  From the configuration
alone: the process is done when more than these slots have passed after the last start time
up to its own, with one slot for each process before it. -/
theorem response_time (hn : 0 < n) (hnum : cfg.numProcesses ≤ maxQueueSize)
    (hlevels : cfg.Uncrowded) (hslot : 1 ≤ cfg.timeSlot) {as : List (Act n)} {t : State n}
    (hrun : Lts.Run (Step cfg) boot as t) {p : Nat} (hp : p < cfg.numProcesses) :
    (∀ (bs cs : List (Act n)) (s : State n), Lts.Run (Step cfg) boot bs s →
        Lts.Run (Step cfg) s cs t → p < s.i →
        s.timer.time + cfg.responseSlots p < t.timer.time → t.pc p = cfg.codeSize p) ∧
      ∀ last, (∀ r ≤ p, cfg.startTime r ≤ last) →
        last + p + cfg.responseSlots p < t.timer.time → t.pc p = cfg.codeSize p := by
  refine ⟨?_, ?_⟩
  · intro bs cs s hbs hcs hadded hlong
    exact done_of_response hn hnum hlevels hslot hbs hadded hcs hlong
  · intro last hlast hlong
    rcases added_in_time hp hlast hrun with hearly | ⟨bs, cs, s, hbs, hcs, hadded, htime⟩
    · omega
    · exact done_of_response hn hnum hlevels hslot hbs hadded hcs (by omega)

/-- One process of one instruction on two CPUs, of which the second one goes on. -/
theorem response_time_two_cpus :
    ∃ s : State 2,
      Lts.exec (step lastConfig) boot (lastProcess ++ (List.replicate 4
        (List.replicate 3 (.cpu 1) ++ List.replicate 9 .tick ++ [.cpu 1])).flatten) = some s ∧
      lastConfig.responseSlots 0 = 3 ∧ s.pc 0 = 1 := by
  obtain ⟨s, hs, htime⟩ := time_of_lastProcess
  have hslots : lastConfig.responseSlots 0 = 3 := by decide
  have hlevels : lastConfig.Uncrowded := by
    intro prio hprio
    have hnum : lastConfig.numProcesses = 1 := rfl
    have hle : lastConfig.levelCount prio 1 ≤ 1 := List.countP_le_length
    rw [hnum]
    omega
  have htime : 0 + 0 + lastConfig.responseSlots 0 < s.timer.time := by
    rw [hslots]
    exact htime
  exact ⟨s, hs, hslots, (response_time (by decide) (by decide) hlevels (by decide)
    (Lts.exec_run hs) (p := 0) (by decide)).2 0 (fun _ _ => Nat.le_refl 0) htime⟩

end Os
end Hdh
