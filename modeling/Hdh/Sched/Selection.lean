import Hdh.Sched.Retention

/-!
# Which process is dispatched

`get_mlq_proc` chooses a level by the slots, and `dequeue` chooses a process of this level
by its legacy `priority`, which has nothing to do with the level: the first process is
taken only when no other one of the level has a smaller number.

Main results:

- Theorem `work_conserving`: what `get_mlq_proc` does to any state.
- Theorem `dequeue_head_iff`: when the first process of a queue is taken.
- Theorem `round_robin`: as long as the first process of the level is taken, the processes of
  each level are dispatched in the order in which they have been placed there.
-/

namespace Hdh
namespace Sched

variable {C P : Type} [DecidableEq C] [DecidableEq P]

/-! ## The level -/

namespace MlqState

variable (f : PcbFields P)

/-- The slot counters that `get_mlq_proc` goes by: those of the state when a level that is
not empty has a positive one, and those after a reset otherwise. -/
def GoesBy (s : MlqState P) (slot : Nat → Int) : Prop :=
  ((∃ i < maxPrio, (s.mlqReadyQueue i).toList ≠ [] ∧ 0 < s.slot i) → slot = s.slot) ∧
    ((∀ i < maxPrio, (s.mlqReadyQueue i).toList ≠ [] → s.slot i ≤ 0) →
      ∀ i < maxPrio, slot i = (maxPrio : Int) - i)

/-- A process has been taken from a level. -/
structure Taken (s s' : MlqState P) (proc : P) (prio : Nat) (slot : Nat → Int) : Prop where
  prio_lt : prio < maxPrio
  nonempty : (s.mlqReadyQueue prio).toList ≠ []
  slot_pos : 0 < slot prio
  lowest : ∀ i < prio, (s.mlqReadyQueue i).toList = [] ∨ slot i ≤ 0
  removed : ∃ index, (s.mlqReadyQueue prio).toList[index]? = some proc ∧
    (s'.mlqReadyQueue prio).toList = (s.mlqReadyQueue prio).toList.eraseIdx index
  others : ∀ i, i ≠ prio → s'.mlqReadyQueue i = s.mlqReadyQueue i
  slot_eq : s'.slot = Function.update slot prio (slot prio - 1)
  running : s'.runningList.toList =
    if s.runningList.size < maxQueueSize then s.runningList.toList ++ [proc]
    else s.runningList.toList

omit [DecidableEq P] in
theorem hasSlot_iff {s : MlqState P} :
    s.hasSlot = true ↔
      ∃ i < maxPrio, (s.mlqReadyQueue i).toList ≠ [] ∧ 0 < s.slot i := by
  rw [hasSlot, List.any_eq_true]
  constructor
  · rintro ⟨i, hi, havail⟩
    obtain ⟨hslot, hne⟩ := available_iff.mp havail
    exact ⟨i, List.mem_range.mp hi, hne, hslot⟩
  · rintro ⟨i, hi, hne, hslot⟩
    exact ⟨i, List.mem_range.mpr hi, available_iff.mpr ⟨hslot, hne⟩⟩

omit [DecidableEq P] in
theorem goesBy_refill (s : MlqState P) : s.GoesBy s.refill.slot := by
  unfold refill
  split_ifs with hslot
  · refine ⟨fun _ => rfl, fun hnone => ?_⟩
    obtain ⟨i, hi, hne, hpos⟩ := hasSlot_iff.mp hslot
    have hle := hnone i hi hne
    omega
  · refine ⟨fun hsome => absurd (hasSlot_iff.mpr hsome) hslot, fun _ i hi => ?_⟩
    exact if_pos hi

omit [DecidableEq P] in
/-- `get_mlq_proc` is work-conserving and respects the levels: it answers NULL only when all
ready queues are empty, and otherwise takes a process from the lowest level that is not
empty and has a slot. -/
theorem work_conserving (s : MlqState P) :
    ((getMlqProc f s).1 = none ↔ ∀ i < maxPrio, (s.mlqReadyQueue i).toList = []) ∧
      ∀ proc, (getMlqProc f s).1 = some proc →
        ∃ prio slot, s.GoesBy slot ∧ Taken s (getMlqProc f s).2 proc prio slot := by
  by_cases hready : s.ready = []
  · have hget := (getMlqProc_idle f hready).1
    rw [hget]
    exact ⟨iff_of_true rfl (ready_eq_nil_iff.mp hready), fun proc hproc => by cases hproc⟩
  · obtain ⟨prio, proc, q, hprio, havail, hfirst, hdeq, hget, -⟩ := getMlqProc_busy f hready
    rw [hget]
    refine ⟨iff_of_false (by simp) fun hnil => hready (ready_eq_nil_iff.mpr hnil), ?_⟩
    rintro proc' hproc
    cases hproc
    obtain ⟨index, hat, hrest, -⟩ := QueueT.dequeue_eq_some hdeq
    obtain ⟨hslot, hne⟩ := available_iff.mp havail
    rw [refill_mlqReadyQueue] at hne
    refine ⟨prio, s.refill.slot, goesBy_refill s, hprio, hne, hslot, ?_, ⟨index, hat, ?_⟩,
      ?_, rfl, ?_⟩
    · intro i hi
      have hnot := hfirst i hi
      rw [← Bool.not_eq_true, available_iff, refill_mlqReadyQueue, not_and_or, not_not,
        Int.not_lt] at hnot
      exact hnot.symm
    · simp only [take, Function.update_self]
      exact hrest
    · intro i hi
      simp only [take, Function.update_of_ne hi, refill_mlqReadyQueue]
    · rw [take, refill_runningList, QueueT.toList_enqueue]

end MlqState

/-! ## The process -/

omit [DecidableEq P] in
/-- The first process of a queue is taken exactly when no process of the queue has a smaller
`priority`. -/
theorem QueueT.dequeue_head_iff {priority : P → Nat} {q q' : QueueT P} {p : P}
    (h : q.dequeue priority = some (p, q')) :
    q.toList.head? = some p ↔
      ∀ r ∈ q.toList.head?, ∀ t ∈ q.toList, priority r ≤ priority t := by
  obtain ⟨index, hat, -, hmin, hfirst⟩ := QueueT.dequeue_eq_some h
  constructor
  · intro hhead r hr
    obtain rfl := Option.some.inj (hhead.symm.trans hr)
    exact hmin
  · intro hle
    cases index with
    | zero => rw [List.head?_eq_getElem?, hat]
    | succ index =>
        -- the first process would have a larger number than the one taken
        have hne : q.toList ≠ [] := by
          intro hnil
          simp [hnil] at hat
        obtain ⟨r, rest, hcons⟩ := List.exists_cons_of_ne_nil hne
        have hlt := hfirst 0 (Nat.succ_pos index) r (by simp [hcons])
        have hge := hle r (by simp [hcons]) p (List.mem_of_getElem? hat)
        omega

omit [DecidableEq P] in
/-- When the first process is taken, the others are left in their order. -/
theorem QueueT.toList_of_head {priority : P → Nat} {q q' : QueueT P} {p : P}
    (h : q.dequeue priority = some (p, q')) (hhead : q.toList.head? = some p) :
    q.toList = p :: q'.toList := by
  obtain ⟨index, hat, hrest, -, hfirst⟩ := QueueT.dequeue_eq_some h
  rw [List.head?_eq_getElem?] at hhead
  cases index with
  | zero =>
      rw [hrest]
      cases hlist : q.toList with
      | nil => simp [hlist] at hhead
      | cons r rest =>
          rw [hlist] at hhead
          obtain rfl := Option.some.inj hhead
          rfl
  | succ index => exact absurd (hfirst 0 (Nat.succ_pos index) p hhead) (Nat.lt_irrefl _)

namespace Dispatch

variable {f : PcbFields P} {s s' : Dispatch C P}

variable (f) in
/-- The process that an event places in the ready queue of a level. -/
def placing (prio : Nat) (e : Event C P) : List P :=
  match e.1 with
  | .addProc _ => e.2.pcb.toList.filter fun p => f.prio p = prio
  | .putProc _ => e.2.pcb.toList.filter fun p => f.prio p = prio
  | _ => []

/-- The process of a level that an event dispatches. -/
def dispatching (prio : Nat) (e : Event C P) : List P :=
  match e.1 with
  | .getProc _ => if e.2.level = some prio then e.2.pcb.toList else []
  | _ => []

variable (f) in
/-- The processes of each level have been dispatched in the order in which they have been
placed in its ready queue. -/
def InOrder (es : List (Event C P)) : Prop :=
  ∀ prio, es.flatMap (dispatching prio) <+: es.flatMap (placing f prio)

variable (f) in
/-- No process of the level that a `get_proc` serves has a smaller `priority` than the
first one. -/
def HeadFirst (s : Dispatch C P) : DispatchAct C P → Prop
  | .getProc _ => ∀ prio ∈ s.mlq.served, ∀ p ∈ (s.mlq.mlqReadyQueue prio).toList.head?,
      ∀ q ∈ (s.mlq.mlqReadyQueue prio).toList, f.priority p ≤ f.priority q
  | _ => True

variable (f) in
/-- The step finds room for the process that it places, and dispatches the first process
of its level. -/
def InTurn (s : Dispatch C P) (a : DispatchAct C P) : Prop :=
  HasRoom f s a ∧ HeadFirst f s a

omit [DecidableEq C] [DecidableEq P] in
theorem served_eq {m : MlqState P} {prio : Nat} (hprio : prio < maxPrio)
    (havail : m.refill.available prio = true)
    (hfirst : ∀ i < prio, m.refill.available i = false) : m.served = some prio := by
  rw [MlqState.served, List.find?_range_eq_some]
  refine ⟨havail, List.mem_range.mpr hprio, ?_⟩
  intro i hi
  simp [hfirst i hi]

omit [DecidableEq P] in
/-- A process that finds room goes to the end of the queue of its level. -/
theorem toList_enter {m : MlqState P} {p : P}
    (hroom : (m.mlqReadyQueue (f.prio p)).size < maxQueueSize) (prio : Nat) :
    ((m.enter f p).mlqReadyQueue prio).toList =
      (m.mlqReadyQueue prio).toList ++ [p].filter fun r => f.prio r = prio := by
  by_cases hlevel : f.prio p = prio
  · subst hlevel
    simp only [MlqState.enter, Function.update_self]
    rw [QueueT.toList_enqueue, if_pos hroom]
    simp
  · simp only [MlqState.enter, Function.update_of_ne (Ne.symm hlevel)]
    simp [hlevel]

/-- A step in turn appends to the queue of a level what it places, and takes from its front
what it dispatches. -/
theorem queue_step {a : DispatchAct C P} {v : Seen P} (hturn : InTurn f s a)
    (heffect : Effect f s a v s') (prio : Nat) :
    (s.mlq.mlqReadyQueue prio).toList ++ placing f prio (a, v) =
      dispatching prio (a, v) ++ (s'.mlq.mlqReadyQueue prio).toList := by
  obtain ⟨hroom, hhead⟩ := hturn
  cases heffect with
  | added => exact (toList_enter hroom.2 prio).symm
  | idle => simp [placing, dispatching, MlqState.resetSlot]
  | @got c p k q hhold hprio havail hfirst hdeq =>
      have hfront := (QueueT.dequeue_head_iff hdeq).mpr
        (hhead k (served_eq hprio havail hfirst))
      have hqueue := QueueT.toList_of_head hdeq hfront
      by_cases hk : k = prio
      · subst hk
        simp [placing, dispatching, MlqState.take, hqueue]
      · have hne : prio ≠ k := Ne.symm hk
        simp [placing, dispatching, MlqState.take, hk, Function.update_of_ne hne]
  | @put c p hhold hprio => exact (toList_enter (hroom p hhold).2 prio).symm
  | finished => simp [placing, dispatching]

/-- What has been placed in a level is, in order, what has been dispatched from it and what
is in its queue. -/
theorem placed_eq {es : List (Event C P)} (hrun : Lts.Run (Called f (InTurn f)) boot es s)
    (prio : Nat) :
    es.flatMap (placing f prio) =
      es.flatMap (dispatching prio) ++ (s.mlq.mlqReadyQueue prio).toList := by
  have hqueue := hrun.fifo (fun s => (s.mlq.mlqReadyQueue prio).toList) (placing f prio)
    (dispatching prio)
    fun _ _ _ hcall => queue_step hcall.1 (effect_of_called hcall) prio
  have hboot : ((boot : Dispatch C P).mlq.mlqReadyQueue prio).toList = [] :=
    QueueT.toList_cleared
  rwa [hboot, List.nil_append] at hqueue

/-- After such steps, a call keeps to the order when it dispatches what comes first of the
queues and of what it places itself. -/
theorem inOrder_snoc_iff {es : List (Event C P)}
    (hrun : Lts.Run (Called f (InTurn f)) boot es s) (e : Event C P) :
    InOrder f (es ++ [e]) ↔ ∀ prio,
      dispatching prio e <+: (s.mlq.mlqReadyQueue prio).toList ++ placing f prio e := by
  apply forall_congr'
  intro prio
  rw [List.flatMap_append, List.flatMap_append, placed_eq hrun prio, List.append_assoc,
    List.prefix_append_right_inj, List.flatMap_singleton, List.flatMap_singleton]

/-- Round robin inside a level, as long as every `get_proc` finds no smaller `priority`
behind the first process of the level that it serves: the processes of each level are
dispatched in the order in which they have been placed.  After such steps, the next call
keeps to this order if and only if it meets the condition. -/
theorem round_robin {es : List (Event C P)}
    (hrun : Lts.Run (Called f (InTurn f)) boot es s) :
    InOrder f es ∧
      ∀ e s', Called f (HasRoom f) s e s' → (InOrder f (es ++ [e]) ↔ HeadFirst f s e.1) := by
  refine ⟨fun prio => ⟨_, (placed_eq hrun prio).symm⟩, ?_⟩
  rintro ⟨a, v⟩ s' hcall
  have heffect := effect_of_called hcall
  rw [inOrder_snoc_iff hrun]
  constructor
  · intro horder
    cases heffect with
    | added => exact trivial
    | idle hhold hready =>
        intro prio hserved
        rw [(MlqState.getMlqProc_idle f hready).2.2] at hserved
        cases hserved
    | @got c p k q hhold hprio havail hfirst hdeq =>
        intro prio hserved
        obtain rfl : k = prio := by
          rw [served_eq hprio havail hfirst] at hserved
          exact Option.some.inj hserved
        apply (QueueT.dequeue_head_iff hdeq).mp
        have hprefix := horder k
        simp only [placing, dispatching, if_true, Option.toList_some, List.append_nil]
          at hprefix
        obtain ⟨rest, hrest⟩ := hprefix
        rw [← hrest]
        rfl
    | put => exact trivial
    | finished => exact trivial
  · intro hhead prio
    exact ⟨_, (queue_step ⟨hcall.1, hhead⟩ heffect prio).symm⟩

instance (s : Dispatch C P) (a : DispatchAct C P) : Decidable (HeadFirst f s a) :=
  match a with
  | .getProc _ =>
      have (prio : Nat) : Decidable (∀ p ∈ (s.mlq.mlqReadyQueue prio).toList.head?,
          ∀ q ∈ (s.mlq.mlqReadyQueue prio).toList, f.priority p ≤ f.priority q) :=
        Option.decidableForallMem
          (p := fun p => ∀ q ∈ (s.mlq.mlqReadyQueue prio).toList,
            f.priority p ≤ f.priority q) _
      Option.decidableForallMem
        (p := fun prio => ∀ p ∈ (s.mlq.mlqReadyQueue prio).toList.head?,
          ∀ q ∈ (s.mlq.mlqReadyQueue prio).toList, f.priority p ≤ f.priority q) _
  | .addProc _ => instDecidableTrue
  | .putProc _ => instDecidableTrue
  | .finish _ => instDecidableTrue

instance (s : Dispatch C P) (a : DispatchAct C P) : Decidable (InTurn f s a) :=
  inferInstanceAs (Decidable (_ ∧ _))

/-- Two processes with the same `priority` take turns. -/
theorem round_robin_two :
    ∃ (es : List (Event (Fin 1) (Fin 2))) (s : Dispatch (Fin 1) (Fin 2)),
      Lts.Run (Called ⟨fun _ => 20, fun _ => 0⟩ (InTurn ⟨fun _ => 20, fun _ => 0⟩))
        boot es s ∧
      es.flatMap (dispatching 0) = [0, 1, 0] ∧ InOrder ⟨fun _ => 20, fun _ => 0⟩ es := by
  obtain ⟨es, s, hrun, hobs⟩ := Lts.record_observe
    (fun (s : Dispatch (Fin 1) (Fin 2)) a _ => InTurn ⟨fun _ => 20, fun _ => 0⟩ s a)
    (call ⟨fun _ => 20, fun _ => 0⟩) boot
    [.addProc 0, .addProc 1, .getProc 0, .putProc 0, .getProc 0, .putProc 0, .getProc 0]
    (fun es _ => es.flatMap (dispatching 0)) (v := [0, 1, 0]) (by decide +kernel)
  exact ⟨es, s, hrun, hobs, (round_robin hrun).1⟩

/-- A process with `priority` 7 is dispatched before one with 20 that was placed earlier. -/
theorem not_round_robin :
    ¬ ∀ (f : PcbFields (Fin 2)) (es : List (Event (Fin 1) (Fin 2)))
      (s : Dispatch (Fin 1) (Fin 2)), Lts.Run (Called f (HasRoom f)) boot es s →
        InOrder f es := by
  intro hclaim
  obtain ⟨es, s, hrun, hobs⟩ := Lts.record_observe
    (fun (s : Dispatch (Fin 1) (Fin 2)) a _ =>
      HasRoom ⟨fun p => if p = 0 then 20 else 7, fun _ => 0⟩ s a)
    (call ⟨fun p => if p = 0 then 20 else 7, fun _ => 0⟩) boot
    [.addProc 0, .addProc 1, .getProc 0]
    (fun es _ => (es.flatMap (dispatching 0),
      es.flatMap (placing ⟨fun p => if p = 0 then 20 else 7, fun _ => 0⟩ 0)))
    (v := ([1], [0, 1])) (by decide +kernel)
  obtain ⟨hdispatched, hplaced⟩ := Prod.mk.inj hobs
  have hprefix := hclaim _ es s hrun 0
  rw [hdispatched, hplaced] at hprefix
  exact absurd hprefix (by decide)

end Dispatch
end Sched
end Hdh
