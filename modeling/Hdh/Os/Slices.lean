import Hdh.Os.Invariant

/-!
# Time slices

`cpu_routine` hands out a slice of `time_slot` calls of `run` when it dispatches a process
and finds no time left, and takes the process back when the slice is used up.  Its
variables `proc` and `time_left` change together on five branches; what one step of a CPU
does to them, and what is seen of it, is said once.

Main results:

- Theorem `view_step`: the steps of a CPU, on the variables of its slice.
- Theorem `time_slice_accounting`: no process gets more calls than a slice has, it is put
  back when it has had them all, and no slice is passed on.
-/

namespace Hdh
namespace Os

open Sched

variable {n : Nat} {cfg : Config} {s s' : State n}

/-! ## What is seen of a slice -/

/-- What a CPU does to a process. -/
inductive SliceEvent (n : Nat)
  /-- The CPU dispatches the process. -/
  | dispatch (c : Fin n) (p : Nat)
  /-- The CPU calls `run` on the process. -/
  | call (c : Fin n) (p : Nat)
  /-- The CPU puts the process back, with its `pc`. -/
  | putBack (c : Fin n) (p : Nat) (pc : Nat)
  /-- The CPU frees the process. -/
  | free (c : Fin n) (p : Nat)
deriving DecidableEq

/-- What is seen of a step of `cpu_routine` at the given place, with the given process. -/
def sliceEvent (cfg : Config) (s : State n) (c : Fin n) (p : Nat) :
    CpuAt → Option (SliceEvent n)
  | .top => if s.pc p = cfg.codeSize p then some (.free c p) else none
  | .put => some (.putBack c p (s.pc p))
  | .recheck => if s.timeLeft c = 0 then some (.dispatch c p) else none
  | .exec => some (.call c p)
  | _ => none

/-- What is seen of a step of the simulator. -/
def visible (cfg : Config) (s : State n) : Act n → Option (SliceEvent n)
  | .cpu c => (s.sched.hold c).bind fun p => sliceEvent cfg s c p (s.cpu c)
  | _ => none

/-- One step of the simulator, with what is seen of it. -/
def SliceStep (cfg : Config) (s : State n) (e : Option (SliceEvent n)) (s' : State n) :
    Prop :=
  ∃ a, Step cfg s a s' ∧ visible cfg s a = e

/-- Every run of the simulator can be seen. -/
theorem sliceRun_of_run {t : State n} {as : List (Act n)} (h : Lts.Run (Step cfg) s as t) :
    ∃ es, Lts.Run (SliceStep cfg) s es t :=
  h.simulate id fun _ a _ hstep => Or.inr ⟨_, a, hstep, rfl⟩

/-- `run` is called on the process. -/
def SliceEvent.calls (p : Nat) : Option (SliceEvent n) → Bool
  | some (.call _ q) => decide (q = p)
  | _ => false

/-- The CPU puts its process back or frees it. -/
def SliceEvent.ends (c : Fin n) : Option (SliceEvent n) → Bool
  | some (.putBack d _ _) => decide (d = c)
  | some (.free d _) => decide (d = c)
  | _ => false

/-- The CPU has dispatched the process and has not put it back or freed it since; `run` has
been called on the process `k` times since. -/
def Slice (c : Fin n) (p : Nat) (es : List (Option (SliceEvent n))) (k : Nat) : Prop :=
  ∃ pre post, es = pre ++ some (.dispatch c p) :: post ∧
    (∀ e ∈ post, SliceEvent.ends c e = false) ∧ post.countP (SliceEvent.calls p) = k

/-- One more event begins a slice or belongs to it. -/
theorem slice_snoc {c : Fin n} {p k : Nat} {es : List (Option (SliceEvent n))}
    {e : Option (SliceEvent n)} :
    Slice c p (es ++ [e]) k ↔
      (e = some (.dispatch c p) ∧ k = 0) ∨
        (SliceEvent.ends c e = false ∧
          ∃ k', Slice c p es k' ∧ k = k' + if SliceEvent.calls p e then 1 else 0) := by
  constructor
  · rintro ⟨pre, post, heq, hends, hcount⟩
    rcases Lts.snoc_eq_append_cons heq with ⟨-, rfl, rfl⟩ | ⟨post', rfl, rfl⟩
    · exact Or.inl ⟨rfl, hcount.symm⟩
    · refine Or.inr ⟨hends e (by simp), _, ⟨pre, post', rfl, ?_, rfl⟩, ?_⟩
      · exact fun d hd => hends d (by simp [hd])
      · rw [← hcount, List.countP_append, List.countP_singleton]
  · rintro (⟨rfl, rfl⟩ | ⟨hend, k', ⟨pre, post, rfl, hends, rfl⟩, rfl⟩)
    · exact ⟨es, [], rfl, by simp, rfl⟩
    · refine ⟨pre, post ++ [e], by simp, ?_, ?_⟩
      · intro d hd
        rcases List.mem_append.mp hd with hd | hd
        · exact hends d hd
        · rw [List.mem_singleton.mp hd]
          exact hend
      · rw [List.countP_append, List.countP_singleton]

/-- An event that has nothing to do with a slice. -/
theorem slice_snoc_other {c : Fin n} {p k : Nat} {es : List (Option (SliceEvent n))}
    {e : Option (SliceEvent n)} (hdispatch : e ≠ some (.dispatch c p))
    (hends : SliceEvent.ends c e = false) (hcalls : SliceEvent.calls p e = false) :
    Slice c p (es ++ [e]) k ↔ Slice c p es k := by
  rw [slice_snoc]
  simp [hdispatch, hends, hcalls]

theorem slice_snoc_none {c : Fin n} {p k : Nat} {es : List (Option (SliceEvent n))} :
    Slice c p (es ++ [none]) k ↔ Slice c p es k :=
  slice_snoc_other (by simp) rfl rfl

/-- A slice ends with the event that puts its process back or frees it. -/
theorem not_slice_snoc {c : Fin n} {p k : Nat} {es : List (Option (SliceEvent n))}
    {e : Option (SliceEvent n)} (hends : SliceEvent.ends c e = true) :
    ¬ Slice c p (es ++ [e]) k := by
  rw [slice_snoc]
  rintro (⟨rfl, -⟩ | ⟨hnot, -⟩)
  · cases hends
  · rw [hends] at hnot
    cases hnot

/-! ## The variables of a slice -/

/-- The place of a CPU and its variables `proc` and `time_left`. -/
structure View where
  place : CpuAt
  proc : Option Nat
  left : Int

/-- What is seen of a CPU. -/
def State.view (s : State n) (c : Fin n) : View where
  place := s.cpu c
  proc := s.sched.hold c
  left := s.timeLeft c

/-- The steps of a CPU on these variables, with what is seen of them. -/
inductive ViewStep (cfg : Config) (s : State n) (c : Fin n) :
    View → Option (SliceEvent n) → View → Prop
  | idle (t : Int) : ViewStep cfg s c ⟨.top, none, t⟩ none ⟨.getIdle, none, t⟩
  | finish {p : Nat} (t : Int) : s.pc p = cfg.codeSize p →
      ViewStep cfg s c ⟨.top, some p, t⟩ (some (.free c p)) ⟨.getFin, none, t⟩
  | expire {p : Nat} : s.pc p ≠ cfg.codeSize p →
      ViewStep cfg s c ⟨.top, some p, 0⟩ none ⟨.put, some p, 0⟩
  | keep {p : Nat} {t : Int} : t ≠ 0 →
      ViewStep cfg s c ⟨.top, some p, t⟩ none ⟨.recheck, some p, t⟩
  | getNone (t : Int) : ViewStep cfg s c ⟨.getIdle, none, t⟩ none ⟨.enter, none, t⟩
  | getSome (p : Nat) (t : Int) :
      ViewStep cfg s c ⟨.getIdle, none, t⟩ none ⟨.recheck, some p, t⟩
  | getFin (proc : Option Nat) (t : Int) :
      ViewStep cfg s c ⟨.getFin, none, t⟩ none ⟨.recheck, proc, 0⟩
  | put (p : Nat) (t : Int) :
      ViewStep cfg s c ⟨.put, some p, t⟩ (some (.putBack c p (s.pc p))) ⟨.getPut, none, t⟩
  | getPut (proc : Option Nat) (t : Int) :
      ViewStep cfg s c ⟨.getPut, none, t⟩ none ⟨.recheck, proc, t⟩
  | leave {place : CpuAt} (t : Int) : place = .detach ∨ place = .enter →
      ViewStep cfg s c ⟨.recheck, none, t⟩ none ⟨place, none, t⟩
  | dispatch (p : Nat) :
      ViewStep cfg s c ⟨.recheck, some p, 0⟩ (some (.dispatch c p))
        ⟨.exec, some p, cfg.timeSlot⟩
  | resume (p : Nat) {t : Int} : t ≠ 0 →
      ViewStep cfg s c ⟨.recheck, some p, t⟩ none ⟨.exec, some p, t⟩
  | call (p : Nat) (t : Int) :
      ViewStep cfg s c ⟨.exec, some p, t⟩ (some (.call c p)) ⟨.enter, some p, t - 1⟩
  | pass {place place' : CpuAt} (proc : Option Nat) (t : Int) :
      place = .enter ∨ place = .inSlot ∨ place = .detach →
      place' = .inSlot ∨ place' = .top ∨ place' = .stopped →
      ViewStep cfg s c ⟨place, proc, t⟩ none ⟨place', proc, t⟩

theorem ViewStep.of_call {c d : Fin n} {p : Nat} {v v' : View}
    (h : ViewStep cfg s c v (some (.call d p)) v') : v'.place = .enter := by
  cases h
  rfl

theorem ViewStep.of_putBack {c d : Fin n} {p pc : Nat} {v v' : View}
    (h : ViewStep cfg s c v (some (.putBack d p pc)) v') :
    v.place = .put ∧ v.proc = some p ∧ pc = s.pc p := by
  cases h
  exact ⟨rfl, rfl, rfl⟩

/-- `get_proc` is called without a process. -/
theorem hold_of_getProc {c : Fin n} {d : Dispatch (Fin n) Nat}
    (h : Dispatch.step cfg.fields s.sched (.getProc c) = some d) :
    s.sched.hold c = none := by
  cases Dispatch.moves_of_step h with
  | idle hhold => exact hhold
  | got hhold => exact hhold

/-- The process that is put back or freed is no longer held. -/
theorem hold_of_release {c : Fin n} {d : Dispatch (Fin n) Nat}
    {b : DispatchAct (Fin n) Nat} (hb : b = .putProc c ∨ b = .finish c)
    (h : Dispatch.step cfg.fields s.sched b = some d) :
    (∃ p, s.sched.hold c = some p) ∧ d.hold c = none := by
  rcases hb with rfl | rfl
  · cases Dispatch.moves_of_step h with
    | returned hheld _ hhold => exact ⟨⟨_, hheld⟩, by rw [hhold, Function.update_self]⟩
    | lost hheld _ _ hhold => exact ⟨⟨_, hheld⟩, by rw [hhold, Function.update_self]⟩
  · cases Dispatch.moves_of_step h with
    | finished hheld _ hhold => exact ⟨⟨_, hheld⟩, by rw [hhold, Function.update_self]⟩

/-- An instruction does not take time from a slice. -/
theorem timeLeft_run (p : Nat) : (s.run cfg p).timeLeft = s.timeLeft := by
  unfold State.run
  split_ifs <;> rfl

theorem view_goCpu (s : State n) (c : Fin n) (a : CpuAt) :
    (s.goCpu c a).view c = ⟨a, s.sched.hold c, s.timeLeft c⟩ := by
  simp [State.view, State.goCpu]

/-! ## What is seen at a place -/

theorem visible_idle {c : Fin n} (h : s.sched.hold c = none) :
    visible cfg s (.cpu c) = none := by
  rw [visible, h, Option.bind_none]

theorem visible_held {c : Fin n} {p : Nat} (h : s.sched.hold c = some p) :
    visible cfg s (.cpu c) = sliceEvent cfg s c p (s.cpu c) := by
  rw [visible, h, Option.bind_some]

theorem visible_pass {c : Fin n}
    (h : s.cpu c = .enter ∨ s.cpu c = .inSlot ∨ s.cpu c = .detach) :
    visible cfg s (.cpu c) = none := by
  cases hhold : s.sched.hold c with
  | none => exact visible_idle hhold
  | some p =>
      rw [visible_held hhold]
      rcases h with hat | hat | hat <;> rw [hat] <;> rfl

/-- Every step of a CPU is one of these. -/
theorem view_step {c : Fin n} (h : cpuRoutine cfg s c = some s') :
    ViewStep cfg s c (s.view c) (visible cfg s (.cpu c)) (s'.view c) := by
  cases cpuTurn_of_cpuRoutine h with
  | idle hat hhold =>
      rw [visible_idle hhold, view_goCpu, State.view, hat, hhold]
      exact .idle _
  | finish hat hhold hpc hd =>
      have hfreed := (hold_of_release (Or.inr rfl) hd).2
      rw [visible_held hhold, hat, sliceEvent, if_pos hpc, view_goCpu, State.view, hat, hhold]
      simp only [hfreed]
      exact .finish _ hpc
  | expire hat hhold hpc hleft =>
      rw [visible_held hhold, hat, sliceEvent, if_neg hpc, view_goCpu, State.view, hat, hhold,
        hleft]
      exact .expire hpc
  | keep hat hhold hpc hleft =>
      rw [visible_held hhold, hat, sliceEvent, if_neg hpc, view_goCpu, State.view, hat, hhold]
      exact .keep hleft
  | @getIdle d hat hd =>
      have hhold := hold_of_getProc hd
      rw [visible_idle hhold, view_goCpu, State.view, hat, hhold]
      cases hgot : d.hold c with
      | none =>
          simp only [if_true]
          exact .getNone _
      | some p =>
          simp only [if_false, reduceCtorEq]
          exact .getSome p _
  | getFin hat hd =>
      have hhold := hold_of_getProc hd
      rw [visible_idle hhold, view_goCpu, State.view, hat, hhold]
      simp only [Function.update_self]
      exact .getFin _ _
  | put hat hd =>
      obtain ⟨⟨p, hhold⟩, hfreed⟩ := hold_of_release (Or.inl rfl) hd
      rw [visible_held hhold, view_goCpu, State.view, hat, hhold, sliceEvent]
      simp only [hfreed]
      exact .put p _
  | getPut hat hd =>
      have hhold := hold_of_getProc hd
      rw [visible_idle hhold, view_goCpu, State.view, hat, hhold]
      exact .getPut _ _
  | exit hat hhold _ =>
      rw [visible_idle hhold, view_goCpu, State.view, hat, hhold]
      exact .leave _ (Or.inl rfl)
  | skip hat hhold _ =>
      rw [visible_idle hhold, view_goCpu, State.view, hat, hhold]
      exact .leave _ (Or.inr rfl)
  | @dispatch p hat hhold hleft =>
      rw [visible_held hhold, view_goCpu, State.view, hat, hhold, sliceEvent, hleft, if_pos rfl]
      simp only [Function.update_self]
      exact .dispatch p
  | @resume p hat hhold hleft =>
      rw [visible_held hhold, view_goCpu, State.view, hat, hhold, sliceEvent, if_neg hleft]
      exact .resume p hleft
  | @exec p hat hhold =>
      have hrun : (s.run cfg p).timeLeft = s.timeLeft := timeLeft_run p
      rw [visible_held hhold, view_goCpu, State.view, hat, hhold, sliceEvent]
      simp only [run_sched, hhold, hrun, Function.update_self]
      exact .call p _
  | enter hat _ =>
      rw [visible_pass (Or.inl hat), view_goCpu, State.view, hat]
      exact .pass _ _ (Or.inl rfl) (Or.inl rfl)
  | nextSlot hat _ =>
      rw [visible_pass (Or.inr (Or.inl hat)), view_goCpu, State.view, hat]
      refine .pass _ _ (Or.inr (Or.inl rfl)) ?_
      split_ifs
      · exact Or.inr (Or.inl rfl)
      · exact Or.inl rfl
  | detach hat _ =>
      rw [visible_pass (Or.inr (Or.inr hat)), view_goCpu, State.view, hat]
      exact .pass _ _ (Or.inr (Or.inr rfl)) (Or.inr (Or.inr rfl))

/-! ## What the others do -/

/-- A CPU leaves the time of the others alone. -/
theorem timeLeft_other {c d : Fin n} (hcd : c ≠ d) (h : cpuRoutine cfg s d = some s') :
    s'.timeLeft c = s.timeLeft c := by
  cases cpuTurn_of_cpuRoutine h with
  | getFin | dispatch => exact Function.update_of_ne hcd _ _
  | @exec p => exact (Function.update_of_ne hcd _ _).trans (congrFun (timeLeft_run p) c)
  | _ => rfl

/-- A step of another thread leaves the variables of a CPU alone. -/
theorem view_other {c : Fin n} {a : Act n} (ha : a ≠ .cpu c) (h : Step cfg s a s') :
    s'.view c = s.view c := by
  cases a with
  | cpu d =>
      have hcd : c ≠ d := fun heq => ha (congrArg Act.cpu heq.symm)
      have hframe := (cpuStep_of_cpuRoutine h).frame
      rw [State.view, hframe.cpu c hcd, hframe.hold c hcd, timeLeft_other hcd h, State.view]
  | ld =>
      cases osStep_of_step h with
      | ld hld =>
          have hleft : s'.timeLeft = s.timeLeft := by
            cases hld <;> rfl
          rw [State.view, hld.frame.cpu, hld.frame.hold, hleft, State.view]
      | timer => rfl
  | tick | wakeTimer | wake | stop =>
      cases osStep_of_step h with
      | timer => rfl

/-- Only a call of `run` changes a `pc`: by one, up to the size of the program. -/
theorem pc_step {a : Act n} (h : Step cfg s a s') (p : Nat) :
    s'.pc p = s.pc p ∨
      ∃ c, visible cfg s a = some (.call c p) ∧ s.pc p < cfg.codeSize p ∧
        s'.pc p = s.pc p + 1 := by
  cases osStep_of_step h with
  | cpu hcpu =>
      rename_i c
      cases hcpu with
      | exec left hat hhold =>
          rename_i q
          unfold State.run
          split_ifs with hsize
          · exact Or.inl rfl
          · by_cases hpq : p = q
            · subst hpq
              refine Or.inr ⟨c, ?_, Nat.not_le.mp hsize, Function.update_self _ _ _⟩
              rw [visible, hhold, hat]
              rfl
            · exact Or.inl (Function.update_of_ne hpq _ _)
      | _ => exact Or.inl rfl
  | ld hld => exact Or.inl (by rw [hld.frame.pc])
  | timer => exact Or.inl rfl

/-! ## The account of a slice -/

/-- The time left of a CPU is what the slice of its process has not used.  A process that
has just been taken from the queue has no slice yet. -/
structure SliceOk (cfg : Config) (pc : Nat → Nat) (es : List (Option (SliceEvent n)))
    (c : Fin n) (v : View) : Prop where
  held : ∀ p k, Slice c p es k →
    v.proc = some p ∧ k + v.left = cfg.timeSlot ∧ (v.place = .recheck → v.left ≠ 0)
  started : ∀ p, v.proc = some p → (v.place = .recheck → v.left ≠ 0) → ∃ k, Slice c p es k
  nonneg : 0 ≤ v.left
  exec : v.place = .exec → v.left ≠ 0
  idle : v.proc = none → v.place ≠ .getFin → v.left = 0
  put : v.place = .put → v.left = 0 ∧ ∀ p, v.proc = some p → pc p < cfg.codeSize p

/-- Without an open slice and without time left, a process may only be held at the recheck. -/
theorem SliceOk.of_idle {es : List (Option (SliceEvent n))} {c : Fin n}
    {place : CpuAt} {proc : Option Nat} {t : Int} (hclosed : ∀ p k, ¬ Slice c p es k)
    (hzero : t = 0) (hproc : proc ≠ none → place = .recheck) (hput : place ≠ .put)
    (hexec : place ≠ .exec) : SliceOk cfg s.pc es c ⟨place, proc, t⟩ where
  held := fun p k hslice => absurd hslice (hclosed p k)
  started := by
    rintro p rfl hleft
    exact absurd hzero (hleft (hproc (Option.some_ne_none p)))
  nonneg := Int.le_of_eq hzero.symm
  exec := fun hat => absurd hat hexec
  idle := fun _ _ => hzero
  put := fun hat => absurd hat hput

section Unseen

variable {es : List (Option (SliceEvent n))} {c : Fin n} {v : View}

/-- Without a process, no slice is open. -/
theorem SliceOk.closed (h : SliceOk cfg s.pc es c v) (hproc : v.proc = none) (p k : Nat) :
    ¬ Slice c p (es ++ [none]) k := by
  rw [slice_snoc_none]
  intro hslice
  rw [(h.held p k hslice).1] at hproc
  cases hproc

/-- A step that is not seen changes no slice. -/
theorem SliceOk.held_none (h : SliceOk cfg s.pc es c v) {p k : Nat}
    (hslice : Slice c p (es ++ [none]) k) : v.proc = some p ∧ k + v.left = cfg.timeSlot := by
  obtain ⟨hproc, hsum, -⟩ := h.held p k (slice_snoc_none.mp hslice)
  exact ⟨hproc, hsum⟩

/-- A step that is not seen closes no slice. -/
theorem SliceOk.started_none (h : SliceOk cfg s.pc es c v)
    (hleft : v.place = .recheck → v.left ≠ 0) {p : Nat} (hproc : v.proc = some p) :
    ∃ k, Slice c p (es ++ [none]) k := by
  obtain ⟨k, hslice⟩ := h.started p hproc hleft
  exact ⟨k, slice_snoc_none.mpr hslice⟩

end Unseen

/-- A process that has been put on the CPU has used nothing of its slot. -/
theorem SliceOk.dispatched (hslot : 1 ≤ cfg.timeSlot) {es : List (Option (SliceEvent n))}
    {c : Fin n} {p : Nat} (h : SliceOk cfg s.pc es c ⟨.recheck, some p, 0⟩) :
    SliceOk cfg s.pc (es ++ [some (.dispatch c p)]) c ⟨.exec, some p, cfg.timeSlot⟩ := by
  constructor
  · intro q k hslice
    rcases slice_snoc.mp hslice with ⟨heq, rfl⟩ | ⟨-, k', hold, -⟩
    · cases heq
      exact ⟨rfl, by simp, by simp⟩
    · -- there is time left at the recheck when a slice is open
      exact absurd rfl ((h.held q k' hold).2.2 rfl)
  · intro q hq _
    cases hq
    exact ⟨0, slice_snoc.mpr (Or.inl ⟨rfl, rfl⟩)⟩
  · exact Int.le_trans (by decide) hslot
  · intro _ hzero
    have hslot' : cfg.timeSlot = 0 := hzero
    omega
  · simp
  · simp

/-- A call of `run` uses one unit of its slice. -/
theorem SliceOk.called {es : List (Option (SliceEvent n))} {c : Fin n} {p : Nat} {t : Int}
    (h : SliceOk cfg s.pc es c ⟨.exec, some p, t⟩) :
    SliceOk cfg s.pc (es ++ [some (.call c p)]) c ⟨.enter, some p, t - 1⟩ := by
  have hpos : t ≠ 0 := h.exec rfl
  have hnonneg : 0 ≤ t := h.nonneg
  constructor
  · intro q k hslice
    rcases slice_snoc.mp hslice with ⟨heq, -⟩ | ⟨-, k', hold, rfl⟩
    · cases heq
    · obtain ⟨hproc, hsum, -⟩ := h.held q k' hold
      cases hproc
      have hsum' : (k' : Int) + t = cfg.timeSlot := hsum
      refine ⟨rfl, ?_, by simp⟩
      simp only [SliceEvent.calls, decide_true, if_true]
      omega
  · intro q hq _
    obtain ⟨k, hold⟩ := h.started q hq (by simp)
    exact ⟨_, slice_snoc.mpr (Or.inr ⟨rfl, k, hold, rfl⟩)⟩
  · have hnext : 0 ≤ t - 1 := by omega
    exact hnext
  · simp
  · simp
  · simp

/-- A step between two places that the account does not mention. -/
theorem SliceOk.passed {es : List (Option (SliceEvent n))} {c : Fin n} {place place' : CpuAt}
    {proc : Option Nat} {t : Int} (h : SliceOk cfg s.pc es c ⟨place, proc, t⟩)
    (hplace : place = .enter ∨ place = .inSlot ∨ place = .detach)
    (hplace' : place' = .inSlot ∨ place' = .top ∨ place' = .stopped) :
    SliceOk cfg s.pc (es ++ [none]) c ⟨place', proc, t⟩ := by
  constructor
  · refine fun q k hslice => ⟨(h.held_none hslice).1, (h.held_none hslice).2, ?_⟩
    rcases hplace' with rfl | rfl | rfl <;> simp
  · refine fun q hq _ => h.started_none ?_ hq
    rcases hplace with rfl | rfl | rfl <;> simp
  · exact h.nonneg
  · rcases hplace' with rfl | rfl | rfl <;> simp
  · refine fun hproc _ => h.idle hproc ?_
    rcases hplace with rfl | rfl | rfl <;> simp
  · rcases hplace' with rfl | rfl | rfl <;> simp

/-- A step of a CPU keeps its account. -/
theorem SliceOk.step (hslot : 1 ≤ cfg.timeSlot) {es : List (Option (SliceEvent n))}
    {c : Fin n} {v v' : View} {e : Option (SliceEvent n)}
    (hsize : ∀ p, s.pc p ≤ cfg.codeSize p) (h : SliceOk cfg s.pc es c v)
    (hstep : ViewStep cfg s c v e v') : SliceOk cfg s.pc (es ++ [e]) c v' := by
  cases hstep with
  | idle t =>
      exact .of_idle (h.closed rfl) (h.idle rfl (by simp)) (by simp) (by simp) (by simp)
  | finish t hpc =>
      constructor
      · exact fun p k hslice => absurd hslice (not_slice_snoc (by simp [SliceEvent.ends]))
      · simp
      · exact h.nonneg
      · simp
      · simp
      · simp
  | expire hpc =>
      rename_i p
      constructor
      · exact fun q k hslice =>
          ⟨(h.held_none hslice).1, (h.held_none hslice).2, by simp⟩
      · exact fun q hq _ => h.started_none (by simp) hq
      · exact le_rfl
      · simp
      · simp
      · refine fun _ => ⟨rfl, ?_⟩
        rintro q hq
        cases hq
        exact Nat.lt_of_le_of_ne (hsize p) hpc
  | keep hleft =>
      constructor
      · exact fun q k hslice =>
          ⟨(h.held_none hslice).1, (h.held_none hslice).2, fun _ => hleft⟩
      · exact fun q hq _ => h.started_none (by simp) hq
      · exact h.nonneg
      · simp
      · simp
      · simp
  | getNone t =>
      exact .of_idle (h.closed rfl) (h.idle rfl (by simp)) (by simp) (by simp) (by simp)
  | getSome p t =>
      exact .of_idle (h.closed rfl) (h.idle rfl (by simp)) (by simp) (by simp) (by simp)
  | getFin proc t => exact .of_idle (h.closed rfl) rfl (by simp) (by simp) (by simp)
  | put p t =>
      exact .of_idle (fun q k => not_slice_snoc (by simp [SliceEvent.ends])) (h.put rfl).1
        (by simp) (by simp) (by simp)
  | getPut proc t =>
      exact .of_idle (h.closed rfl) (h.idle rfl (by simp)) (by simp) (by simp) (by simp)
  | leave t hplace =>
      refine .of_idle (h.closed rfl) (h.idle rfl (by simp)) (by simp) ?_ ?_
      · rcases hplace with rfl | rfl <;> simp
      · rcases hplace with rfl | rfl <;> simp
  | dispatch p => exact h.dispatched hslot
  | resume p hleft =>
      constructor
      · exact fun q k hslice =>
          ⟨(h.held_none hslice).1, (h.held_none hslice).2, by simp⟩
      · exact fun q hq _ => h.started_none (fun _ => hleft) hq
      · exact h.nonneg
      · exact fun _ => hleft
      · simp
      · simp
  | call p t => exact h.called
  | pass proc t hplace hplace' => exact h.passed hplace hplace'

/-! ## The account of a run -/

/-- What is seen is about the CPU that makes the step and the process that it holds. -/
theorem visible_eq_some {a : Act n} {ev : SliceEvent n} (h : visible cfg s a = some ev) :
    ∃ d p, a = .cpu d ∧ s.sched.hold d = some p ∧
      (ev = .free d p ∨ ev = .putBack d p (s.pc p) ∨ ev = .dispatch d p ∨
        ev = .call d p) := by
  cases a with
  | cpu d =>
      obtain ⟨p, hhold, hev⟩ := Option.bind_eq_some_iff.mp h
      refine ⟨d, p, rfl, hhold, ?_⟩
      unfold sliceEvent at hev
      split at hev
      · split_ifs at hev
        cases hev
        exact Or.inl rfl
      · cases hev
        exact Or.inr (Or.inl rfl)
      · split_ifs at hev
        cases hev
        exact Or.inr (Or.inr (Or.inl rfl))
      · cases hev
        exact Or.inr (Or.inr (Or.inr rfl))
      · cases hev
  | _ => cases h

/-- What is seen of another thread neither begins nor ends a slice of a CPU. -/
theorem visible_other {c : Fin n} {a : Act n} (ha : a ≠ .cpu c) (p : Nat) :
    visible cfg s a ≠ some (.dispatch c p) ∧ SliceEvent.ends c (visible cfg s a) = false := by
  cases hev : visible cfg s a with
  | none => simp [SliceEvent.ends]
  | some ev =>
      obtain ⟨d, q, rfl, -, hkind⟩ := visible_eq_some hev
      have hdc : d ≠ c := fun heq => ha (congrArg Act.cpu heq)
      rcases hkind with rfl | rfl | rfl | rfl <;> simp [SliceEvent.ends, hdc]

/-- No other thread calls `run` on the process of a CPU. -/
theorem visible_not_calls {c : Fin n} {a : Act n} (hX : Dispatch.Exclusive s.sched)
    (ha : a ≠ .cpu c) {p : Nat} (hheld : s.sched.hold c = some p) :
    SliceEvent.calls p (visible cfg s a) = false := by
  cases hev : visible cfg s a with
  | none => rfl
  | some ev =>
      obtain ⟨d, q, rfl, hhold, hkind⟩ := visible_eq_some hev
      have hpq : q ≠ p := by
        rintro rfl
        exact ha (congrArg Act.cpu (hX.hold_inj d c q hhold hheld))
      rcases hkind with rfl | rfl | rfl | rfl <;> simp [SliceEvent.calls, hpq]

/-- The account of every CPU. -/
structure Accounted (cfg : Config) (es : List (Option (SliceEvent n))) (s : State n) :
    Prop where
  exclusive : Dispatch.Exclusive s.sched
  size : ∀ p, s.pc p ≤ cfg.codeSize p
  slice : ∀ c, SliceOk cfg s.pc es c (s.view c)

theorem accounted_boot : Accounted cfg [] (boot : State n) where
  exclusive := Dispatch.exclusive_boot
  size := fun p => Nat.zero_le _
  slice := fun c => .of_idle (by rintro p k ⟨pre, post, heq, -⟩; simp at heq) rfl
    (by simp [boot, Dispatch.boot]) (by simp [boot]) (by simp [boot])

/-- The account of a CPU depends on the `pc` of the process that it puts back only. -/
theorem SliceOk.of_pc {pc pc' : Nat → Nat} {es : List (Option (SliceEvent n))} {c : Fin n}
    {v : View} (h : SliceOk cfg pc es c v)
    (hpc : ∀ p, v.place = .put → v.proc = some p → pc' p = pc p) :
    SliceOk cfg pc' es c v where
  held := h.held
  started := h.started
  nonneg := h.nonneg
  exec := h.exec
  idle := h.idle
  put := fun hat => ⟨(h.put hat).1, fun p hp => by
    rw [hpc p hat hp]
    exact (h.put hat).2 p hp⟩

/-- A step of another thread keeps the account of a CPU. -/
theorem SliceOk.other {c : Fin n} {a : Act n} {es : List (Option (SliceEvent n))}
    (hX : Dispatch.Exclusive s.sched) (h : SliceOk cfg s.pc es c (s.view c))
    (ha : a ≠ .cpu c) (hstep : Step cfg s a s') :
    SliceOk cfg s'.pc (es ++ [visible cfg s a]) c (s'.view c) := by
  rw [view_other ha hstep]
  have hslice : ∀ p k, (s.view c).proc = some p →
      (Slice c p (es ++ [visible cfg s a]) k ↔ Slice c p es k) := fun p k hheld =>
    slice_snoc_other (visible_other ha p).1 (visible_other ha p).2
      (visible_not_calls hX ha hheld)
  have hpc : ∀ p, (s.view c).place = .put → (s.view c).proc = some p →
      s'.pc p = s.pc p := by
    intro p _ hheld
    rcases pc_step hstep p with hsame | ⟨d, hcall, -⟩
    · exact hsame
    · have hnot : SliceEvent.calls p (visible cfg s a) = false :=
        visible_not_calls hX ha hheld
      rw [hcall] at hnot
      simp [SliceEvent.calls] at hnot
  suffices hsame : SliceOk cfg s.pc (es ++ [visible cfg s a]) c (s.view c) from hsame.of_pc hpc
  constructor
  · intro p k hnew
    rcases slice_snoc.mp hnew with ⟨heq, -⟩ | ⟨-, k', hold, -⟩
    · exact absurd heq (visible_other ha p).1
    · exact h.held p k ((hslice p k (h.held p k' hold).1).mp hnew)
  · intro p hp hleft
    obtain ⟨k, hold⟩ := h.started p hp hleft
    exact ⟨k, (hslice p k hp).mpr hold⟩
  · exact h.nonneg
  · exact h.exec
  · exact h.idle
  · exact h.put

/-- Every step of the simulator keeps the account. -/
theorem Accounted.step (hslot : 1 ≤ cfg.timeSlot) {es : List (Option (SliceEvent n))}
    {e : Option (SliceEvent n)} (h : Accounted cfg es s) (hstep : SliceStep cfg s e s') :
    Accounted cfg (es ++ [e]) s' := by
  obtain ⟨a, hact, rfl⟩ := hstep
  constructor
  · rcases sched_step hact with hsame | ⟨b, hb⟩
    · rw [hsame]
      exact h.exclusive
    · exact Dispatch.Exclusive.step h.exclusive hb
  · intro p
    rcases pc_step hact p with hsame | ⟨_, -, hlt, hnext⟩
    · rw [hsame]
      exact h.size p
    · rw [hnext]
      exact hlt
  · intro c
    by_cases ha : a = .cpu c
    · subst ha
      have hview := view_step hact
      refine SliceOk.of_pc ((h.slice c).step hslot h.size hview) ?_
      -- a process at `put` has not been executed in this step
      intro p hat _
      rcases pc_step hact p with hsame | ⟨d, hcall, -⟩
      · exact hsame
      · rw [hcall] at hview
        rw [hview.of_call] at hat
        cases hat
    · exact (h.slice c).other h.exclusive ha hact

theorem accounted_of_run (hslot : 1 ≤ cfg.timeSlot) {es : List (Option (SliceEvent n))}
    (hrun : Lts.Run (SliceStep cfg) boot es s) : Accounted cfg es s :=
  hrun.history accounted_boot fun _ _ _ _ h hstep => h.step hslot hstep

/-- Time slices.  Since a CPU has dispatched a process, and until it puts it back or frees
it, `run` is called on the process at most `time_slot` times; it is put back after exactly
`time_slot` calls, with its `pc` short of the code size; and a CPU without a process at
the head of its loop has no time left. -/
theorem time_slice_accounting (hslot : 1 ≤ cfg.timeSlot)
    {es : List (Option (SliceEvent n))} (hrun : Lts.Run (SliceStep cfg) boot es s)
    (c : Fin n) :
    (∀ p k, Slice c p es k → (k : Int) ≤ cfg.timeSlot) ∧
      (∀ p pc s', SliceStep cfg s (some (.putBack c p pc)) s' →
        pc < cfg.codeSize p ∧ (∃ k, Slice c p es k) ∧
          ∀ q k, Slice c q es k → q = p ∧ (k : Int) = cfg.timeSlot) ∧
      (s.cpu c = .top → s.sched.hold c = none → s.timeLeft c = 0) := by
  have hacc := accounted_of_run hslot hrun
  have hok := hacc.slice c
  refine ⟨?_, ?_, ?_⟩
  · intro p k hslice
    have hsum := (hok.held p k hslice).2.1
    have hnonneg := hok.nonneg
    omega
  · rintro p pc s' ⟨a, hact, hev⟩
    have ha : a = .cpu c := by
      by_contra hne
      have hends : SliceEvent.ends c (visible cfg s a) = false := (visible_other hne p).2
      rw [hev] at hends
      simp [SliceEvent.ends] at hends
    subst ha
    have hview := view_step hact
    rw [hev] at hview
    obtain ⟨hplace, hproc, rfl⟩ := hview.of_putBack
    obtain ⟨hzero, hshort⟩ := hok.put hplace
    refine ⟨hshort p hproc, hok.started p hproc (by rw [hplace]; simp), ?_⟩
    intro q k hslice
    obtain ⟨hproc', hsum, -⟩ := hok.held q k hslice
    rw [hproc] at hproc'
    exact ⟨(Option.some_inj.mp hproc').symm, by omega⟩
  · intro hat hhold
    exact hok.idle hhold (by rw [State.view, hat]; simp)

/-- A time slot of 1, and one process with two instructions. -/
def shortConfig : Config where
  timeSlot := 1
  numProcesses := 1
  startTime := fun _ => 0
  prio := fun _ => 0
  priority := fun _ => 0
  codeSize := fun _ => 2

/-- One CPU, up to the place where it puts the process back. -/
theorem time_slice_accounting_one_cpu :
    ∃ (es : List (Option (SliceEvent 1))) (s : State 1),
      s.cpu 0 = .put ∧ es.filterMap id = [.dispatch 0 0, .call 0 0] ∧
      (∀ p k, Slice 0 p es k → (k : Int) ≤ 1) ∧
      (∀ p pc s', SliceStep shortConfig s (some (.putBack 0 p pc)) s' →
        pc < 2 ∧ (∃ k, Slice 0 p es k) ∧ ∀ q k, Slice 0 q es k → q = p ∧ (k : Int) = 1) ∧
      (s.cpu 0 = .top → s.sched.hold 0 = none → s.timeLeft 0 = 0) := by
  obtain ⟨es, s, hrun, hobs⟩ := Lts.record_observe
    (fun (_ : State 1) (_ : Act 1) _ => True)
    (fun s a => (step shortConfig s a).map fun t => (visible shortConfig s a, t)) boot
    [.ld, .ld, .ld, .ld, .ld, .cpu 0, .cpu 0, .cpu 0, .cpu 0, .cpu 0, .cpu 0,
      .tick, .tick, .tick, .tick, .tick, .ld, .ld, .ld, .ld, .tick, .cpu 0, .cpu 0]
    (fun es s => ((es.map Prod.snd).filterMap id, s.cpu 0))
    (v := ([.dispatch 0 0, .call 0 0], .put)) (by decide +kernel)
  obtain ⟨hseen, hat⟩ := Prod.mk.inj hobs
  have hvisible : Lts.Run (SliceStep shortConfig) boot (es.map Prod.snd) s := by
    apply Lts.Run.map Prod.snd
    apply hrun.mono
    rintro t ⟨a, e⟩ u ⟨-, hstep⟩
    obtain ⟨u', hu, heq⟩ := Option.map_eq_some_iff.mp hstep
    obtain ⟨hvis, rfl⟩ := Prod.mk.inj heq
    exact ⟨a, hu, hvis⟩
  exact ⟨_, s, hat, hseen, time_slice_accounting (by decide) hvisible 0⟩

end Os
end Hdh
