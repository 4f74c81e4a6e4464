import Hdh.Os.Speed

/-!
# What the programs take

A process is called once for each instruction of its program, and a program that has none is
called once.  The guard is the test of `pc` at the head of the loop of `cpu_routine`: between
it and the next call of `run` a process can only go through a ready queue, and what is in a
ready queue has passed the test or has never been called.

Main results:

- Theorem `Over.step`: a process that has come to the end of its program stays there.
- Theorem `Owed.step`: what has been called and what is left of a program.
- Theorems `countP_callsIn` and `countP_callsIn_le`: the number of calls on some of the
  processes.
-/

namespace Hdh
namespace Os

open Sched

variable {n : Nat} {cfg : Config} {s s' : State n}

/-! ## The moves of a process -/

/-- What becomes ready has been put back or added. -/
theorem ready_step {a : Act n} (hstep : Step cfg s a s') {q : Nat}
    (hq : q ∈ s'.sched.mlq.ready) :
    q ∈ s.sched.mlq.ready ∨ (∃ c, s.cpu c = .put ∧ s.sched.hold c = some q) ∨
      s.ld = .add ∧ q = s.i := by
  have hget : ∀ {c : Fin n} {d : Dispatch (Fin n) Nat},
      Dispatch.step cfg.fields s.sched (.getProc c) = some d → q ∈ d.mlq.ready →
      q ∈ s.sched.mlq.ready := by
    intro c d hd hq
    cases Dispatch.moves_of_step hd with
    | idle _ _ hnil => simp [hnil] at hq
    | got _ hready => exact hready.mem_iff.mpr (List.mem_cons_of_mem _ hq)
  cases osStep_of_step hstep with
  | timer => exact Or.inl hq
  | @cpu c _ hcpu =>
      cases hcpu with
      | finish _ _ _ hd =>
          cases Dispatch.moves_of_step hd with
          | finished _ hready => exact Or.inl (hready ▸ hq)
      | getIdle _ hd => exact Or.inl (hget hd hq)
      | get _ _ hd => exact Or.inl (hget hd hq)
      | put hat hd =>
          cases Dispatch.moves_of_step hd with
          | returned hheld hready =>
              rcases List.mem_cons.mp (hready.mem_iff.mp hq) with rfl | hq
              · exact Or.inr (Or.inl ⟨c, hat, hheld⟩)
              · exact Or.inl hq
          | lost _ hready => exact Or.inl (hready ▸ hq)
      | exec => exact Or.inl (by simpa [State.goCpu] using hq)
      | _ => exact Or.inl hq
  | ld hld =>
      cases hld with
      | add hat hd =>
          cases Dispatch.moves_of_step hd with
          | added _ hready =>
              rcases List.mem_cons.mp (hready.mem_iff.mp hq) with rfl | hq
              · exact Or.inr (Or.inr ⟨hat, rfl⟩)
              · exact Or.inl hq
          | dropped _ hready => exact Or.inl (hready ▸ hq)
      | _ => exact Or.inl hq

/-- What a CPU comes to hold has been ready. -/
theorem hold_step {a : Act n} (hstep : Step cfg s a s') {c : Fin n} {p : Nat}
    (hp : s'.sched.hold c = some p) :
    s.sched.hold c = some p ∨ a = .cpu c ∧ p ∈ s.sched.mlq.ready := by
  by_cases ha : a = .cpu c
  · subst ha
    have hget : ∀ {d : Dispatch (Fin n) Nat},
        Dispatch.step cfg.fields s.sched (.getProc c) = some d → d.hold c = some p →
        p ∈ s.sched.mlq.ready := by
      intro d hd hp
      cases Dispatch.moves_of_step hd with
      | idle hnone _ _ hhold =>
          rw [hhold, hnone] at hp
          cases hp
      | got _ hready hhold =>
          rw [hhold, Function.update_self, Option.some_inj] at hp
          exact hready.mem_iff.mpr (hp ▸ List.mem_cons_self ..)
    have hrelease : ∀ {b : DispatchAct (Fin n) Nat} {d : Dispatch (Fin n) Nat},
        b = .putProc c ∨ b = .finish c → Dispatch.step cfg.fields s.sched b = some d →
        d.hold c ≠ some p := by
      intro b d hb hd hp
      rw [(hold_of_release hb hd).2] at hp
      simp at hp
    cases cpuStep_of_cpuRoutine hstep with
    | finish _ _ _ hd => exact absurd hp (hrelease (Or.inr rfl) hd)
    | put _ hd => exact absurd hp (hrelease (Or.inl rfl) hd)
    | getIdle _ hd => exact Or.inr ⟨rfl, hget hd hp⟩
    | get _ _ hd => exact Or.inr ⟨rfl, hget hd hp⟩
    | exec => exact Or.inl (by simpa [State.goCpu] using hp)
    | _ => exact Or.inl hp
  · exact Or.inl ((congrArg View.proc (view_other ha hstep)).symm.trans hp)

/-! ## The calls that a process is owed -/

/-- No CPU is going to call `run` on the process before it has looked at its `pc`. -/
def Over (s : State n) (p : Nat) : Prop :=
  p < s.i ∧ p ∉ s.sched.mlq.ready ∧ ∀ c, s.sched.hold c = some p →
    s.cpu c ≠ .put ∧ s.cpu c ≠ .recheck ∧ s.cpu c ≠ .exec

/-- A process that has come to the end of its program stays there. -/
theorem Over.step {p : Nat} (h : Over s p) (hpc : s.pc p = cfg.codeSize p) {a : Act n}
    (hstep : Step cfg s a s') : Over s' p := by
  obtain ⟨hlt, hready, hheld⟩ := h
  refine ⟨?_, ?_, ?_⟩
  · rcases i_step hstep with hi | ⟨-, hi⟩ <;> omega
  · intro hp
    rcases ready_step hstep hp with hp | ⟨c, hat, hc⟩ | ⟨-, rfl⟩
    · exact hready hp
    · exact (hheld c hc).1 hat
    · exact Nat.lt_irrefl _ hlt
  · intro c hc'
    have hc : s.sched.hold c = some p :=
      (hold_step hstep hc').resolve_right fun hgot => hready hgot.2
    obtain ⟨hput, hrecheck, hexec⟩ := hheld c hc
    by_cases ha : a = .cpu c
    · subst ha
      -- a CPU that has looked at `pc` frees the process
      cases cpuTurn_of_cpuRoutine hstep with
      | finish _ _ _ hd =>
          simp only [State.goCpu, (hold_of_release (Or.inr rfl) hd).2] at hc'
          cases hc'
      | expire _ hhold hne | keep _ hhold hne =>
          obtain rfl := Option.some_inj.mp (hhold.symm.trans hc)
          exact absurd hpc hne
      | idle _ hhold | exit _ hhold | skip _ hhold =>
          rw [hhold] at hc
          cases hc
      | getIdle _ hd | getFin _ hd | getPut _ hd =>
          rw [hold_of_getProc hd] at hc
          cases hc
      | put hat => exact absurd hat hput
      | dispatch hat | resume hat => exact absurd hat hrecheck
      | exec hat => exact absurd hat hexec
      | enter | detach => simp [State.goCpu]
      | nextSlot =>
          simp only [State.goCpu, Function.update_self]
          split_ifs <;> simp
    · have hplace : s'.cpu c = s.cpu c := congrArg View.place (view_other ha hstep)
      rw [hplace]
      exact ⟨hput, hrecheck, hexec⟩

/-- The calls of `run` on a process so far. -/
def callsOn (p : Nat) (es : List (Option (SliceEvent n))) : Nat :=
  es.countP (SliceEvent.calls p)

/-- The calls of `run` that a program takes. -/
def Config.callsFor (cfg : Config) (p : Nat) : Nat :=
  max (cfg.codeSize p) 1

/-- What has been called and what is left of the program of a process. -/
structure Owed (cfg : Config) (p : Nat) (es : List (Option (SliceEvent n))) (s : State n) :
    Prop where
  pc : s.pc p = min (callsOn p es) (cfg.codeSize p)
  le : callsOn p es ≤ cfg.callsFor p
  isOver : callsOn p es = cfg.callsFor p → Over s p

/-- Nothing has been called at the beginning. -/
theorem owed_boot (p : Nat) : Owed cfg p [] (boot : State n) := by
  constructor
  · simp [callsOn, boot]
  · simp [callsOn]
  · simp only [callsOn, List.countP_nil, Config.callsFor]
    omega

/-- One more event counts when it is a call on the process. -/
theorem callsOn_snoc (p : Nat) (es : List (Option (SliceEvent n)))
    (e : Option (SliceEvent n)) :
    callsOn p (es ++ [e]) = callsOn p es + (SliceEvent.calls p e).toNat := by
  cases h : SliceEvent.calls p e <;> simp [callsOn, h]

/-- A step that calls no `run` on the process. -/
theorem Owed.pass {p : Nat} {es : List (Option (SliceEvent n))} (h : Owed cfg p es s)
    {a : Act n} (hstep : Step cfg s a s')
    (hnot : SliceEvent.calls p (visible cfg s a) = false) :
    Owed cfg p (es ++ [visible cfg s a]) s' := by
  have hcalls : callsOn p (es ++ [visible cfg s a]) = callsOn p es := by
    rw [callsOn_snoc, hnot, Bool.toNat_false, Nat.add_zero]
  have hpc : s'.pc p = s.pc p := by
    rcases pc_step hstep p with hsame | ⟨c, hcall, -⟩
    · exact hsame
    · simp [hcall, SliceEvent.calls] at hnot
  constructor
  · rw [hcalls, hpc]
    exact h.pc
  · rw [hcalls]
    exact h.le
  · rw [hcalls]
    intro hall
    refine (h.isOver hall).step ?_ hstep
    have hpc := h.pc
    simp only [Config.callsFor] at hall
    omega

/-- A call of `run` on the process. -/
theorem Owed.call (hS : Sound cfg s) {p : Nat} {es : List (Option (SliceEvent n))}
    (h : Owed cfg p es s) {c : Fin n} (hstep : Step cfg s (.cpu c) s')
    (hcall : visible cfg s (.cpu c) = some (.call c p)) :
    Owed cfg p (es ++ [some (.call c p)]) s' := by
  obtain ⟨-, hexec, hheld⟩ := visible_call hcall
  have hcalls : callsOn p (es ++ [some (.call c p)]) = callsOn p es + 1 := by
    simp [callsOn_snoc, SliceEvent.calls]
  have hless : callsOn p es < cfg.callsFor p := by
    refine Nat.lt_of_le_of_ne h.le fun hall => ?_
    exact ((h.isOver hall).2.2 c hheld).2.2 hexec
  have hpc := h.pc
  have hafter := congrFun (pc_of_call hstep hcall) p
  constructor
  · rw [hcalls, hafter]
    simp only [Config.callsFor] at hless
    split_ifs
    · omega
    · rw [Function.update_self]
      omega
  · rw [hcalls]
    exact hless
  · intro _
    -- the CPU has passed `exec`, and nobody else has the process
    obtain ⟨hsched, hplace⟩ := sched_of_call hstep hcall
    refine ⟨?_, ?_, ?_⟩
    · rw [(cpuStep_of_cpuRoutine hstep).frame.i]
      exact hS.callable.alive_lt p (hS.sched.hold_alive c p hheld)
    · rw [hsched]
      exact hS.sched.hold_not_ready c p hheld
    · rw [hsched]
      intro d hd
      obtain rfl := hS.sched.hold_inj d c p hd hheld
      simp [hplace]

/-- Every step keeps the account of a process. -/
theorem Owed.step (hS : Sound cfg s) {p : Nat} {es : List (Option (SliceEvent n))}
    (h : Owed cfg p es s) {e : Option (SliceEvent n)} (hstep : SliceStep cfg s e s') :
    Owed cfg p (es ++ [e]) s' := by
  obtain ⟨a, hact, rfl⟩ := hstep
  by_cases hcall : ∃ c, visible cfg s a = some (.call c p)
  · obtain ⟨c, hcall⟩ := hcall
    obtain ⟨rfl, -⟩ := visible_call hcall
    have hnext := h.call hS hact hcall
    rwa [hcall]
  · refine h.pass hact ?_
    exact Bool.eq_false_iff.mpr fun hcalls => hcall (calls_iff.mp hcalls)

/-- The invariants of the simulation, in a run of events. -/
theorem sound_of_sliceRun {es : List (Option (SliceEvent n))}
    (h : Lts.Run (SliceStep cfg) boot es s) : Sound cfg s := by
  obtain ⟨as, has⟩ := run_of_sliceRun h
  exact Sound.of_run has

/-- The account is kept in every run. -/
theorem owed_of_run {es : List (Option (SliceEvent n))}
    (h : Lts.Run (SliceStep cfg) boot es s) (p : Nat) : Owed cfg p es s :=
  h.history_of (fun _ _ hrun => sound_of_sliceRun hrun) (owed_boot p)
    fun _ _ _ _ hS hO hstep => hO.step hS hstep

/-! ## All calls -/

/-- A call of `run` on one of the given processes. -/
def SliceEvent.callsIn (among : Nat → Bool) : Option (SliceEvent n) → Bool
  | some (.call _ p) => among p
  | _ => false

/-- A call on one of the processes. -/
theorem callsIn_iff {among : Nat → Bool} {e : Option (SliceEvent n)} :
    SliceEvent.callsIn among e = true ↔ ∃ c p, e = some (.call c p) ∧ among p = true := by
  cases e with
  | none => simp [SliceEvent.callsIn]
  | some ev => cases ev <;> simp [SliceEvent.callsIn]

/-- A call of `run`. -/
abbrev SliceEvent.isCall : Option (SliceEvent n) → Bool :=
  SliceEvent.callsIn fun _ => true

/-- The calls of `run` that the programs of the given processes take. -/
def Config.callsForAll (cfg : Config) (among : Nat → Bool) : Nat :=
  (((List.range cfg.numProcesses).filter among).map cfg.callsFor).sum

/-- The calls of `run` that the programs take. -/
def Config.totalCalls (cfg : Config) : Nat :=
  ((List.range cfg.numProcesses).map cfg.callsFor).sum

/-- A call is one of a process that has been added. -/
theorem lt_of_call (hS : Sound cfg s) {a : Act n} {c : Fin n} {p : Nat}
    (hcall : visible cfg s a = some (.call c p)) : p < cfg.numProcesses := by
  obtain ⟨-, -, hheld⟩ := visible_call hcall
  have hlt := hS.callable.alive_lt p (hS.sched.hold_alive c p hheld)
  exact Nat.lt_of_lt_of_le hlt hS.linked.counts.le

/-- The calls of a run, process by process. -/
theorem countP_callsIn {es : List (Option (SliceEvent n))}
    (h : Lts.Run (SliceStep cfg) boot es s) (among : Nat → Bool) :
    es.countP (SliceEvent.callsIn among) =
      (((List.range cfg.numProcesses).filter among).map fun p => callsOn p es).sum := by
  apply h.history_of (I := fun es _ => es.countP (SliceEvent.callsIn among) =
    (((List.range cfg.numProcesses).filter among).map fun p => callsOn p es).sum)
    (fun _ _ hrun => sound_of_sliceRun hrun)
  · simp [callsOn]
  · rintro es t e u hS ih ⟨a, -, rfl⟩
    simp only [callsOn_snoc, List.countP_append, List.countP_singleton]
    by_cases hcall : ∃ c p, visible cfg t a = some (.call c p) ∧ among p = true
    · obtain ⟨c, p, hcall, hamong⟩ := hcall
      have hmem : p ∈ (List.range cfg.numProcesses).filter among :=
        List.mem_filter.mpr ⟨List.mem_range.mpr (lt_of_call hS hcall), hamong⟩
      have hsum := Lts.sum_map_change (List.nodup_range.filter _) hmem
        (f := fun q => callsOn q es)
        (g := fun q => callsOn q es + (SliceEvent.calls q (some (.call c p))).toNat)
        (by
          intro q hqp
          simp [SliceEvent.calls, Ne.symm hqp])
      rw [hcall]
      simp only [SliceEvent.calls, decide_true, Bool.toNat_true] at hsum ⊢
      simp only [SliceEvent.callsIn, hamong, if_true]
      omega
    · have hnot : SliceEvent.callsIn among (visible cfg t a) = false :=
        Bool.eq_false_iff.mpr fun hin => hcall (callsIn_iff.mp hin)
      have hzero : ∀ q ∈ (List.range cfg.numProcesses).filter among,
          callsOn q es + (SliceEvent.calls q (visible cfg t a)).toNat = callsOn q es := by
        intro q hq
        have hother : SliceEvent.calls q (visible cfg t a) = false := by
          refine Bool.eq_false_iff.mpr fun hcalls => ?_
          obtain ⟨c, hev⟩ := calls_iff.mp hcalls
          exact hcall ⟨c, q, hev, (List.mem_filter.mp hq).2⟩
        rw [hother, Bool.toNat_false, Nat.add_zero]
      rw [List.map_congr_left hzero, ih]
      simp [hnot]

/-- No process gets more calls than its program takes. -/
theorem countP_callsIn_le {es : List (Option (SliceEvent n))}
    (h : Lts.Run (SliceStep cfg) boot es s) (among : Nat → Bool) :
    es.countP (SliceEvent.callsIn among) ≤ cfg.callsForAll among := by
  rw [countP_callsIn h among]
  exact Lts.sum_map_le_add (b := 0) fun p _ => (owed_of_run h p).le

/-- All calls of a run are in the demand of the programs. -/
theorem countP_isCall_le {es : List (Option (SliceEvent n))}
    (h : Lts.Run (SliceStep cfg) boot es s) :
    es.countP SliceEvent.isCall ≤ cfg.totalCalls := by
  have hle := countP_callsIn_le h fun _ => true
  rwa [Config.callsForAll, List.filter_true] at hle

end Os
end Hdh
