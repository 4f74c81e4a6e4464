import Hdh.Sched.Calls

/-!
# The running list

`get_mlq_proc` enters the process that it returns in `running_list`, `put_mlq_proc`
purges it, and `__sys_memmap` searches the list for the PID of its caller.  The branch
of `cpu_routine` that frees a finished process leaves its PCB on the list.

A section of the scheduler under `queue_lock` is one step, but the search does not take
the lock: its loop is one step for each turn, and between two turns the other CPUs go on.

Main results:

- Theorem `exactList_step_iff`: which steps keep the list exact.
- Theorem `Finds.step`: what a step keeps for the searches that are under way.
- Theorem `running_list_exact`: the list is exact and no search misses its process, in the
  runs without completions, with at most `MAX_QUEUE_SIZE` processes on the CPUs, and in
  which no `put_mlq_proc` overlaps with a search.
-/

namespace Hdh
namespace Sched

variable {C P : Type} [DecidableEq C] [DecidableEq P]

namespace Dispatch

variable {f : PcbFields P} {s s' : Dispatch C P}

/-- The PCBs of the running list are those that the CPUs hold, each of them once. -/
structure ExactList (s : Dispatch C P) : Prop where
  nodup : s.mlq.runningList.toList.Nodup
  mem_iff : ∀ p, p ∈ s.mlq.runningList.toList ↔ ∃ c, s.hold c = some p

/-- The PCBs of the running list are those that the CPUs hold and those of `rest`, each of
them once. -/
structure Entries (rest : List P) (s : Dispatch C P) : Prop where
  nodup : s.mlq.runningList.toList.Nodup
  mem_iff : ∀ p, p ∈ s.mlq.runningList.toList ↔ (∃ c, s.hold c = some p) ∨ p ∈ rest

omit [DecidableEq C] [DecidableEq P] in
/-- An exact list has no further entries. -/
theorem exactList_iff : ExactList s ↔ Entries [] s := by
  constructor
  · intro h
    exact ⟨h.nodup, fun p => (h.mem_iff p).trans (by simp)⟩
  · intro h
    exact ⟨h.nodup, fun p => (h.mem_iff p).trans (by simp)⟩

/-- The step frees no process, and finds room in the list when it dispatches one. -/
def KeepsList (s : Dispatch C P) : DispatchAct C P → Prop
  | .getProc _ => s.mlq.ready ≠ [] → s.mlq.runningList.size < maxQueueSize
  | .finish _ => False
  | _ => True

omit [DecidableEq C] [DecidableEq P] in
theorem exactList_boot : ExactList (boot : Dispatch C P) := by
  constructor <;> simp [boot, MlqState.initScheduler]

omit [DecidableEq C] [DecidableEq P] in
/-- A process that is taken from a level was ready. -/
theorem mem_ready_of_dequeue {p : P} {q : QueueT P} {prio : Nat} (hprio : prio < maxPrio)
    (hdeq : (s.mlq.mlqReadyQueue prio).dequeue f.priority = some (p, q)) :
    p ∈ s.mlq.ready := by
  rw [MlqState.ready, List.mem_flatMap]
  refine ⟨prio, List.mem_range.mpr hprio, ?_⟩
  rw [(QueueT.dequeue_perm hdeq).mem_iff]
  exact List.mem_cons_self

variable {rest : List P}

omit [DecidableEq P] in
/-- A CPU gets a process, which is entered in the list when there is room. -/
theorem Entries.got_iff (h : Entries rest s) (hexcl : Exclusive s) {c : C} {p : P}
    (hrest : p ∉ rest) (hhold : s.hold c = none) (hready : p ∈ s.mlq.ready)
    (hlist : s'.mlq.runningList = s.mlq.runningList.enqueue p)
    (hhold' : s'.hold = Function.update s.hold c (some p)) :
    Entries rest s' ↔ s.mlq.runningList.size < maxQueueSize := by
  have hnot : p ∉ s.mlq.runningList.toList := by
    intro hmem
    obtain ⟨d, hd⟩ | hleft := (h.mem_iff p).mp hmem
    · exact hexcl.hold_not_ready d p hd hready
    · exact hrest hleft
  have hlist' := QueueT.toList_enqueue s.mlq.runningList p
  constructor
  · intro h'
    by_contra hfull
    have hmem : p ∈ s'.mlq.runningList.toList :=
      (h'.mem_iff p).mpr (Or.inl ⟨c, by rw [hhold', Function.update_self]⟩)
    rw [hlist, hlist', if_neg hfull] at hmem
    exact hnot hmem
  · intro hroom
    rw [if_pos hroom] at hlist'
    constructor
    · rw [hlist, hlist']
      refine List.nodup_append.mpr ⟨h.nodup, List.nodup_singleton p, ?_⟩
      rintro r hr q hq rfl
      exact hnot (List.mem_singleton.mp hq ▸ hr)
    · intro r
      rw [hlist, hlist', List.mem_append, List.mem_singleton, h.mem_iff, hhold']
      constructor
      · rintro ((hheld | hleft) | rfl)
        · exact Or.inl (held_update (by simp [hhold]) hheld)
        · exact Or.inr hleft
        · exact Or.inl ⟨c, Function.update_self ..⟩
      · rintro (⟨d, hd⟩ | hleft)
        · rcases hold_of_take hd with ⟨-, hrp⟩ | hd
          · exact Or.inr hrp
          · exact Or.inl (Or.inl ⟨d, hd⟩)
        · exact Or.inl (Or.inr hleft)

/-- A CPU puts its process back, which is purged from the list. -/
theorem Entries.put (h : Entries rest s) (hexcl : Exclusive s) {c : C} {p : P}
    (hrest : p ∉ rest) (hhold : s.hold c = some p)
    (hlist : s'.mlq.runningList = (s.mlq.runningList.purgequeue p).2)
    (hhold' : s'.hold = Function.update s.hold c none) : Entries rest s' := by
  constructor
  · rw [hlist, QueueT.toList_purgequeue]
    exact h.nodup.erase p
  · intro r
    rw [hlist, QueueT.toList_purgequeue, h.nodup.mem_erase_iff, h.mem_iff, hhold']
    constructor
    · rintro ⟨hrp, hheld | hleft⟩
      · have hne : s.hold c ≠ some r := fun hr => hrp (Option.some.inj (hr.symm.trans hhold))
        exact Or.inl (held_update hne hheld)
      · exact Or.inr hleft
    · rintro (⟨d, hd⟩ | hleft)
      · obtain ⟨hdc, hd⟩ := hold_of_release hd
        refine ⟨?_, Or.inl ⟨d, hd⟩⟩
        rintro rfl
        exact hdc (hexcl.hold_inj d c r hd hhold)
      · refine ⟨?_, Or.inr hleft⟩
        rintro rfl
        exact hrest hleft

omit [DecidableEq P] in
/-- A finished process stays on the list. -/
theorem Entries.finished (h : Entries rest s) {c : C} {p : P} (hhold : s.hold c = some p)
    (hlist : s'.mlq.runningList = s.mlq.runningList)
    (hhold' : s'.hold = Function.update s.hold c none) : Entries (rest ++ [p]) s' := by
  constructor
  · rw [hlist]
    exact h.nodup
  · intro r
    rw [hlist, h.mem_iff, hhold', List.mem_append, List.mem_singleton]
    constructor
    · rintro (hheld | hleft)
      · by_cases hrp : r = p
        · exact Or.inr (Or.inr hrp)
        · have hne : s.hold c ≠ some r := fun hr =>
            hrp (Option.some.inj (hr.symm.trans hhold))
          exact Or.inl (held_update hne hheld)
      · exact Or.inr (Or.inl hleft)
    · rintro (⟨d, hd⟩ | hleft | rfl)
      · exact Or.inl ⟨d, (hold_of_release hd).2⟩
      · exact Or.inr hleft
      · exact Or.inl ⟨c, hhold⟩

omit [DecidableEq P] in
/-- So that the list is not exact any more. -/
theorem ExactList.not_finished (h : ExactList s) (hexcl : Exclusive s) {c : C} {p : P}
    (hhold : s.hold c = some p) (hlist : s'.mlq.runningList = s.mlq.runningList)
    (hhold' : s'.hold = Function.update s.hold c none) : ¬ ExactList s' := by
  intro h'
  have hmem := (((exactList_iff.mp h).finished hhold hlist hhold').mem_iff p).mpr (by simp)
  obtain ⟨d, hd⟩ := (h'.mem_iff p).mp hmem
  rw [hhold'] at hd
  obtain ⟨hdc, hd⟩ := hold_of_release hd
  exact hdc (hexcl.hold_inj d c p hd hhold)

/-- Which steps keep the list exact. -/
theorem exactList_step_iff (h : ExactList s) (hexcl : Exclusive s) {a : DispatchAct C P}
    {v : Seen P} (heffect : Effect f s a v s') : ExactList s' ↔ KeepsList s a := by
  cases heffect with
  | added => exact iff_of_true ⟨h.nodup, h.mem_iff⟩ trivial
  | idle hhold hready =>
      exact iff_of_true ⟨h.nodup, h.mem_iff⟩ fun hne => absurd hready hne
  | got hhold hprio havail hfirst hdeq =>
      have hready := mem_ready_of_dequeue hprio hdeq
      rw [exactList_iff, (exactList_iff.mp h).got_iff hexcl (List.not_mem_nil) hhold hready
        (by simp [MlqState.take]) rfl]
      exact ⟨fun hroom _ => hroom, fun hroom => hroom (List.ne_nil_of_mem hready)⟩
  | put hhold =>
      refine iff_of_true (exactList_iff.mpr ?_) trivial
      exact (exactList_iff.mp h).put hexcl List.not_mem_nil hhold rfl rfl
  | finished hhold =>
      exact iff_of_false (h.not_finished hexcl hhold rfl rfl) id

instance (s : Dispatch C P) (a : DispatchAct C P) : Decidable (KeepsList s a) :=
  match a with
  | .addProc _ => instDecidableTrue
  | .putProc _ => instDecidableTrue
  | .getProc _ => inferInstanceAs (Decidable (s.mlq.ready ≠ [] → _))
  | .finish _ => instDecidableFalse

end Dispatch

/-! ## The search of `__sys_memmap` -/

/-- A CPU before the loop over `running_list`, before one of its turns, and after it, with
the process that it has found. -/
inductive Scan (P : Type)
  | off
  | turn (i : Nat)
  | done (caller : Option P)
deriving DecidableEq

/-- The CPU is in the loop. -/
def Scan.busy : Scan P → Bool
  | .turn _ => true
  | _ => false

/-- The scheduler, the CPU that is between the lock and the unlock of `put_mlq_proc`, and the
searches. -/
structure Lookup (C P : Type) where
  sched : Dispatch C P
  putting : Option C
  scan : C → Scan P

/-- The steps: those of the scheduler, the lock of `put_mlq_proc`, and the search.  Where a
turn reads an array that is being shifted, or a PCB that has been freed, it ends in `stray`,
which may be anything. -/
inductive LookupAct (C P : Type)
  | call (a : DispatchAct C P)
  | lock (c : C)
  | search (c : C)
  | turn (c : C) (stray : Scan P)

namespace Lookup

open Dispatch

/-- After `init_scheduler`, with no process loaded. -/
def boot : Lookup C P where
  sched := Dispatch.boot
  putting := none
  scan := fun _ => .off

/-- The list as it is when `queue_lock` is free. -/
def list (s : Lookup C P) : List P :=
  s.sched.mlq.runningList.toList

/-- The lock is free for the step, and the CPU is not in the middle of something else. -/
def Allows (s : Lookup C P) : DispatchAct C P → Prop
  | .addProc _ => s.putting = none
  | .getProc c => s.putting = none ∧ (s.scan c).busy = false
  | .putProc c => s.putting = some c
  | .finish c => s.putting ≠ some c ∧ (s.scan c).busy = false

instance (s : Lookup C P) (a : DispatchAct C P) : Decidable (s.Allows a) := by
  cases a <;> unfold Allows <;> infer_instance

/-- After a step of the scheduler. -/
def called (s : Lookup C P) (d : Dispatch C P) : DispatchAct C P → Lookup C P
  | .addProc _ => { s with sched := d }
  | .getProc c => { s with sched := d, scan := Function.update s.scan c .off }
  | .putProc c => ⟨d, none, Function.update s.scan c .off⟩
  | .finish c => { s with sched := d, scan := Function.update s.scan c .off }

/-- One turn: `i < size`, and `proc[i]->pid == pid`. -/
def look (pid : P → BitVec 32) (s : Lookup C P) (p : P) (i : Nat) (stray : Scan P) : Scan P :=
  if s.putting.isSome then stray
  else
    match s.list[i]? with
    | none => .done none
    | some q =>
        if s.sched.alive q then if pid q = pid p then .done (some q) else .turn (i + 1)
        else stray

/-- One step; `none` when the step is not possible. -/
def step (f : PcbFields P) (pid : P → BitVec 32) (s : Lookup C P) :
    LookupAct C P → Option (Lookup C P)
  | .call a =>
      if s.Allows a then (Dispatch.step f s.sched a).map fun d => s.called d a else none
  | .lock c =>
      if s.putting = none ∧ (s.sched.hold c).isSome ∧ (s.scan c).busy = false then
        some { s with putting := some c }
      else none
  | .search c =>
      if s.putting ≠ some c ∧ (s.sched.hold c).isSome ∧ (s.scan c).busy = false then
        some { s with scan := Function.update s.scan c (.turn 0) }
      else none
  | .turn c stray =>
      match s.sched.hold c, s.scan c with
      | some p, .turn i =>
          some { s with scan := Function.update s.scan c (s.look pid p i stray) }
      | _, _ => none

/-- The step keeps the list exact, and no search overlaps with a `put_mlq_proc`. -/
def KeepsFinding (s : Lookup C P) : LookupAct C P → Prop
  | .call a => KeepsList s.sched a
  | .lock _ => ∀ c, (s.scan c).busy = false
  | .search _ => s.putting = none
  | .turn .. => True

instance {n : Nat} (s : Lookup (Fin n) P) (a : LookupAct (Fin n) P) :
    Decidable (KeepsFinding s a) := by
  cases a <;> unfold KeepsFinding <;> infer_instance

/-- The list is exact, the process of a search is in the part that has not been read yet, and
a search that has come to its end has found its process, or one with the same PID. -/
structure Finds (pid : P → BitVec 32) (s : Lookup C P) : Prop where
  exact : ExactList s.sched
  apart : s.putting ≠ none → ∀ c, (s.scan c).busy = false
  ahead : ∀ c i, s.scan c = .turn i → ∃ p, s.sched.hold c = some p ∧ p ∈ s.list.drop i
  found : ∀ c r, s.scan c = .done r →
    ∃ p q, s.sched.hold c = some p ∧ r = some q ∧ s.sched.alive q = true ∧ pid q = pid p

variable {f : PcbFields P} {pid : P → BitVec 32} {s s' : Lookup C P}

omit [DecidableEq C] [DecidableEq P] in
/-- Nobody is searching at the beginning. -/
theorem finds_boot : Finds pid (boot : Lookup C P) := by
  constructor
  · exact exactList_boot
  · simp [boot]
  · simp [boot]
  · simp [boot]

/-- What a step of the scheduler leaves to the CPUs that do not take it: their processes,
and the list up to a process that is appended, unless it is `put_proc`. -/
theorem kept_of_effect {a : DispatchAct C P} {v : Seen P} {d : Dispatch C P}
    (heffect : Effect f s.sched a v d) (hkeep : KeepsList s.sched a) :
    (∀ p, s.sched.alive p = true → d.alive p = true) ∧
      (s.list <+: d.mlq.runningList.toList ∨ ∃ c, a = .putProc c) := by
  cases heffect with
  | added => exact ⟨fun p hp => alive_of_update rfl hp, Or.inl (List.prefix_refl _)⟩
  | idle => exact ⟨fun _ hp => hp, Or.inl (List.prefix_refl _)⟩
  | @got c p =>
      refine ⟨fun _ hp => hp, Or.inl ?_⟩
      have hlist := QueueT.toList_enqueue s.sched.mlq.runningList p
      simp only [list, MlqState.take, MlqState.refill_runningList, hlist]
      split_ifs
      · exact List.prefix_append _ _
      · exact List.prefix_refl _
  | @put c => exact ⟨fun _ hp => hp, Or.inr ⟨c, rfl⟩⟩
  | finished => exact hkeep.elim

omit [DecidableEq P] in
/-- The searches of the other CPUs when one CPU leaves its own. -/
theorem scan_of_update {c d : C} {x : Scan P} (hx : x ≠ .off)
    (h : Function.update s.scan c .off d = x) : d ≠ c ∧ s.scan d = x := by
  by_cases hdc : d = c
  · rw [hdc, Function.update_self] at h
    exact absurd h.symm hx
  · rw [Function.update_of_ne hdc] at h
    exact ⟨hdc, h⟩

/-- A CPU that is in a search after a step of the scheduler, or has done one, has not taken
this step. -/
theorem other_of_called {a : DispatchAct C P} {d : Dispatch C P}
    (hstep : Dispatch.step f s.sched a = some d) {c : C} {x : Scan P} (hx : x ≠ .off)
    (h : (s.called d a).scan c = x) :
    s.scan c = x ∧ d.hold c = s.sched.hold c := by
  have hmoves := moves_of_step hstep
  cases a with
  | addProc p =>
      refine ⟨h, ?_⟩
      cases hmoves with
      | added _ _ hhold => rw [hhold]
      | dropped _ _ _ hhold => rw [hhold]
  | getProc e =>
      obtain ⟨hce, hscan⟩ := scan_of_update hx h
      exact ⟨hscan, hmoves.hold_other (Or.inl rfl) c hce⟩
  | putProc e =>
      obtain ⟨hce, hscan⟩ := scan_of_update hx h
      exact ⟨hscan, hmoves.hold_other (Or.inr (Or.inl rfl)) c hce⟩
  | finish e =>
      obtain ⟨hce, hscan⟩ := scan_of_update hx h
      exact ⟨hscan, hmoves.hold_other (Or.inr (Or.inr rfl)) c hce⟩

/-- A step of the scheduler keeps what the searches rely on. -/
theorem Finds.call (h : Finds pid s) (hexcl : Exclusive s.sched) {a : DispatchAct C P}
    {d : Dispatch C P} (hallows : s.Allows a) (hkeep : KeepsList s.sched a)
    (hstep : Dispatch.step f s.sched a = some d) : Finds pid (s.called d a) := by
  have heffect := effect_of_step hstep
  have hsched : (s.called d a).sched = d := by cases a <;> rfl
  obtain ⟨halive, hlist⟩ := kept_of_effect heffect hkeep
  constructor
  · rw [hsched]
    exact (exactList_step_iff h.exact hexcl heffect).mpr hkeep
  · intro hputting c
    by_contra hbusy
    have hon : (s.called d a).scan c ≠ .off := by
      intro hoff
      rw [hoff] at hbusy
      exact hbusy rfl
    obtain ⟨hscan, -⟩ := other_of_called hstep hon rfl
    rw [← hscan] at hbusy
    refine hbusy (h.apart ?_ c)
    cases a with
    | putProc e => exact absurd rfl hputting
    | addProc | getProc | finish => exact hputting
  · intro c i hturn
    obtain ⟨hscan, hhold⟩ := other_of_called hstep (by simp) hturn
    obtain ⟨p, hp, hmem⟩ := h.ahead c i hscan
    refine ⟨p, by rw [hsched, hhold, hp], ?_⟩
    rw [list, hsched]
    obtain ⟨tail, htail⟩ | ⟨e, rfl⟩ := hlist
    · rw [← htail, List.drop_append]
      exact List.mem_append_left _ hmem
    -- the CPU that puts its process back has the lock: nobody is searching
    · have hidle := h.apart (by rw [show s.putting = some e from hallows]; simp) c
      rw [hscan] at hidle
      cases hidle
  · intro c r hdone
    obtain ⟨hscan, hhold⟩ := other_of_called hstep (by simp) hdone
    obtain ⟨p, q, hp, hr, hq, hpid⟩ := h.found c r hscan
    rw [hsched]
    exact ⟨p, q, by rw [hhold, hp], hr, halive q hq, hpid⟩

omit [DecidableEq C] [DecidableEq P] in
/-- One turn goes on to the rest of the list, or has found the process. -/
theorem Finds.look (h : Finds pid s) (hexcl : Exclusive s.sched) {c : C} {p : P} {i : Nat}
    (hhold : s.sched.hold c = some p) (hturn : s.scan c = .turn i) (stray : Scan P) :
    (s.look pid p i stray = .turn (i + 1) ∧ p ∈ s.list.drop (i + 1)) ∨
      ∃ q, s.look pid p i stray = .done (some q) ∧ s.sched.alive q = true ∧ pid q = pid p := by
  have hfree : s.putting.isSome = false := by
    rw [Option.isSome_eq_false_iff, Option.isNone_iff_eq_none]
    by_contra hputting
    have hidle := h.apart hputting c
    rw [hturn] at hidle
    cases hidle
  obtain ⟨p', hp', hmem⟩ := h.ahead c i hturn
  obtain rfl : p = p' := Option.some_inj.mp (hhold.symm.trans hp')
  have hi : i < s.list.length := by
    by_contra hle
    rw [List.drop_eq_nil_of_le (by omega)] at hmem
    cases hmem
  obtain ⟨e, he⟩ := (h.exact.mem_iff _).mp (List.getElem_mem hi)
  have halive := hexcl.hold_alive e _ he
  rw [List.drop_eq_getElem_cons hi, List.mem_cons] at hmem
  simp only [Lookup.look, hfree, List.getElem?_eq_getElem hi, halive, Bool.false_eq_true,
    if_false, if_true]
  by_cases hpid : pid s.list[i] = pid p
  · rw [if_pos hpid]
    exact Or.inr ⟨_, rfl, halive, hpid⟩
  · rw [if_neg hpid]
    refine Or.inl ⟨rfl, hmem.resolve_left ?_⟩
    intro heq
    exact hpid (congrArg pid heq.symm)

omit [DecidableEq P] in
/-- A step of a search changes that of its CPU only. -/
theorem Finds.update (h : Finds pid s) {c : C} {x : Scan P}
    (hbusy : x.busy = true → s.putting = none)
    (hturn : ∀ i, x = .turn i → ∃ p, s.sched.hold c = some p ∧ p ∈ s.list.drop i)
    (hdone : ∀ r, x = .done r → ∃ p q, s.sched.hold c = some p ∧ r = some q ∧
      s.sched.alive q = true ∧ pid q = pid p) :
    Finds pid { s with scan := Function.update s.scan c x } := by
  constructor
  · exact h.exact
  · intro hputting d
    by_cases hdc : d = c
    · simp only [hdc, Function.update_self]
      exact Bool.eq_false_iff.mpr fun hx => hputting (hbusy hx)
    · simp only [Function.update_of_ne hdc]
      exact h.apart hputting d
  · intro d i hd
    by_cases hdc : d = c
    · simp only [hdc, Function.update_self] at hd ⊢
      exact hturn i hd
    · simp only [Function.update_of_ne hdc] at hd
      exact h.ahead d i hd
  · intro d r hd
    by_cases hdc : d = c
    · simp only [hdc, Function.update_self] at hd ⊢
      exact hdone r hd
    · simp only [Function.update_of_ne hdc] at hd
      exact h.found d r hd

/-- A step that meets the condition keeps what the searches rely on. -/
theorem Finds.step (h : Finds pid s) (hexcl : Exclusive s.sched) {a : LookupAct C P}
    (hkeep : KeepsFinding s a) (hstep : Lookup.step f pid s a = some s') : Finds pid s' := by
  cases a with
  | call a =>
      simp only [Lookup.step] at hstep
      split_ifs at hstep with hallows
      obtain ⟨d, hd, rfl⟩ := Option.map_eq_some_iff.mp hstep
      exact h.call hexcl hallows hkeep hd
  | lock c =>
      simp only [Lookup.step] at hstep
      split_ifs at hstep
      cases hstep
      exact ⟨h.exact, fun _ => hkeep, h.ahead, h.found⟩
  | search c =>
      simp only [Lookup.step] at hstep
      split_ifs at hstep with hstart
      cases hstep
      obtain ⟨p, hp⟩ := Option.isSome_iff_exists.mp hstart.2.1
      have hmem : p ∈ s.list := (h.exact.mem_iff p).mpr ⟨c, hp⟩
      refine h.update (fun _ => hkeep) ?_ (by simp)
      rintro i ⟨⟩
      exact ⟨p, hp, hmem⟩
  | turn c stray =>
      simp only [Lookup.step] at hstep
      split at hstep
      · rename_i p i hp hturn
        cases hstep
        have hfree : s.putting = none := by
          by_contra hputting
          have hidle := h.apart hputting c
          rw [hturn] at hidle
          cases hidle
        obtain ⟨hlook, hmem⟩ | ⟨q, hlook, hq, hpid⟩ := h.look hexcl hp hturn stray
        · rw [hlook]
          refine h.update (fun _ => hfree) ?_ (by simp)
          rintro j ⟨⟩
          exact ⟨p, hp, hmem⟩
        · rw [hlook]
          refine h.update (by simp [Scan.busy]) (by simp) ?_
          rintro r ⟨⟩
          exact ⟨p, q, hp, rfl, hq, hpid⟩
      · cases hstep

/-- What a step does to the scheduler. -/
theorem sched_of_step {a : LookupAct C P} (hstep : Lookup.step f pid s a = some s') :
    s'.sched = s.sched ∨ ∃ b, Dispatch.step f s.sched b = some s'.sched := by
  cases a with
  | call b =>
      simp only [Lookup.step] at hstep
      split_ifs at hstep
      obtain ⟨d, hd, rfl⟩ := Option.map_eq_some_iff.mp hstep
      refine Or.inr ⟨b, hd.trans ?_⟩
      cases b <;> rfl
  | lock c | search c =>
      simp only [Lookup.step] at hstep
      split_ifs at hstep
      cases hstep
      exact Or.inl rfl
  | turn c stray =>
      simp only [Lookup.step] at hstep
      split at hstep
      · cases hstep
        exact Or.inl rfl
      · cases hstep

/-! ## Runs -/

variable (f pid) in
/-- A step that meets a condition on the state before it. -/
def Stepped (ok : Lookup C P → LookupAct C P → Prop) (s : Lookup C P) (a : LookupAct C P)
    (s' : Lookup C P) : Prop :=
  ok s a ∧ step f pid s a = some s'

/-- No two CPUs hold one process, whatever the searches do. -/
theorem exclusive_of_run {ok : Lookup C P → LookupAct C P → Prop} {as : List (LookupAct C P)}
    (hrun : Lts.Run (Stepped f pid ok) boot as s) : Exclusive s.sched := by
  refine hrun.invariant (I := fun s => Exclusive s.sched) exclusive_boot ?_
  intro s a s' hexcl hstep
  obtain hsame | ⟨b, hb⟩ := sched_of_step hstep.2
  · rw [hsame]
    exact hexcl
  · exact hexcl.step hb

/-- The invariant of the searches holds in every run that meets the condition. -/
theorem finds_of_run {as : List (LookupAct C P)}
    (hrun : Lts.Run (Stepped f pid KeepsFinding) boot as s) : Finds pid s :=
  hrun.invariant_of (J := fun s => Exclusive s.sched) (fun _ _ h => exclusive_of_run h)
    finds_boot fun _ _ _ hexcl h hstep => h.step hexcl hstep.1 hstep.2

/-- The running list is exact, as long as no process finishes and a process that is
dispatched finds room in the list: it holds the PCBs that the CPUs hold, each of them once
and none that has been freed.  Any other step of the scheduler leaves the list inexact.  And
as long as no `put_mlq_proc` overlaps with a search, a search has its process before it until
it finds it, or another one with the same PID. -/
theorem running_list_exact {as : List (LookupAct C P)}
    (hrun : Lts.Run (Stepped f pid KeepsFinding) boot as s) :
    ExactList s.sched ∧ (∀ p ∈ s.list, s.sched.alive p = true) ∧
      (∀ c i, s.scan c = .turn i → ∃ p, s.sched.hold c = some p ∧ p ∈ s.list.drop i) ∧
      (∀ c r, s.scan c = .done r → ∃ p q, s.sched.hold c = some p ∧ r = some q ∧
        pid q = pid p ∧ ((∀ x, s.sched.alive x = true → pid x = pid p → x = p) → q = p)) ∧
      ∀ a d, Dispatch.step f s.sched a = some d → (ExactList d ↔ KeepsList s.sched a) := by
  have h := finds_of_run hrun
  have hexcl := exclusive_of_run hrun
  refine ⟨h.exact, ?_, h.ahead, ?_, ?_⟩
  · intro p hp
    obtain ⟨c, hc⟩ := (h.exact.mem_iff p).mp hp
    exact hexcl.hold_alive c p hc
  · intro c r hdone
    obtain ⟨p, q, hp, hr, hq, hpid⟩ := h.found c r hdone
    exact ⟨p, q, hp, hr, hpid, fun hunique => hunique q hq hpid⟩
  · intro a d hstep
    exact exactList_step_iff h.exact hexcl (effect_of_step hstep)

/-- Two CPUs with a process each, of which one finds its own in two turns, before the other
one puts its process back and takes up a third. -/
theorem running_list_exact_two_cpus :
    ∃ (as : List (LookupAct (Fin 2) (Fin 3))) (s : Lookup (Fin 2) (Fin 3)),
      Lts.Run (Stepped ⟨fun _ => 0, fun _ => 0⟩ (fun p => BitVec.ofNat 32 p.val)
        KeepsFinding) boot as s ∧
      (s.list = [1, 2] ∧ s.scan 1 = .done (some 1)) ∧ ExactList s.sched := by
  obtain ⟨s, hrun, hobs⟩ := Lts.exec_observe KeepsFinding
    (step ⟨fun _ => 0, fun _ => 0⟩ fun p => BitVec.ofNat 32 p.val)
    (boot : Lookup (Fin 2) (Fin 3))
    [.call (.addProc 0), .call (.addProc 1), .call (.getProc 0), .call (.getProc 1),
      .search 1, .turn 1 .off, .call (.addProc 2), .turn 1 .off, .lock 0,
      .call (.putProc 0), .call (.getProc 0)]
    (fun s => (s.list, s.scan 1)) (v := ([1, 2], .done (some 1))) (by decide +kernel)
  exact ⟨_, s, hrun, Prod.mk.inj hobs, (running_list_exact hrun).1⟩

/-- The only process finishes: its PCB is freed, and it is still on the list.  And a search
misses its process, which a `put_proc` of the other CPU moves to a cell read before. -/
theorem not_running_list_exact :
    (¬ ∀ (as : List (LookupAct (Fin 1) (Fin 1))) (s : Lookup (Fin 1) (Fin 1)),
      Lts.Run (Stepped ⟨fun _ => 0, fun _ => 0⟩ (fun _ => 1) fun _ _ => True) boot as s →
        ExactList s.sched ∧ ∀ p ∈ s.list, s.sched.alive p = true) ∧
    ¬ ∀ (as : List (LookupAct (Fin 2) (Fin 2))) (s : Lookup (Fin 2) (Fin 2)),
      Lts.Run (Stepped ⟨fun _ => 0, fun _ => 0⟩ (fun p => BitVec.ofNat 32 p.val)
        fun _ _ => True) boot as s → ∀ c, s.scan c ≠ .done none := by
  constructor
  · intro hclaim
    obtain ⟨s, hrun, hobs⟩ := Lts.exec_observe (fun _ _ => True)
      (step ⟨fun _ => 0, fun _ => 0⟩ fun _ => 1) (boot : Lookup (Fin 1) (Fin 1))
      [.call (.addProc 0), .call (.getProc 0), .call (.finish 0)]
      (fun s => (s.list, s.sched.alive 0)) (v := ([0], false)) (by decide +kernel)
    obtain ⟨hlist, halive⟩ := Prod.mk.inj hobs
    have hfreed := (hclaim _ s hrun).2 0 (by rw [hlist]; exact List.mem_singleton_self 0)
    rw [halive] at hfreed
    cases hfreed
  · intro hclaim
    obtain ⟨s, hrun, hobs⟩ := Lts.exec_observe (fun _ _ => True)
      (step ⟨fun _ => 0, fun _ => 0⟩ fun p => BitVec.ofNat 32 p.val)
      (boot : Lookup (Fin 2) (Fin 2))
      [.call (.addProc 0), .call (.addProc 1), .call (.getProc 0), .call (.getProc 1),
        .search 1, .turn 1 .off, .lock 0, .call (.putProc 0), .turn 1 .off]
      (fun s => s.scan 1) (v := .done none) (by decide +kernel)
    exact hclaim _ s hrun 1 hobs

end Lookup
end Sched
end Hdh
