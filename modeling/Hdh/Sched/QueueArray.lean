import Hdh.Library.Containers
import Hdh.Library.Runs
import Hdh.Sched.Queue

/-!
# The process queue as an array

`struct queue_t` as it lies in memory: an array of `MAX_QUEUE_SIZE` pointers with any
contents and an `int`.  Nothing is assumed of its size: an access past the ends of the
array is undefined, as is `priority` of a NULL pointer, and the answer is then `none`.

The functions of `queue.c` are carried out on this array, on the queues whose invariant
is a part of their type, and on bounded lists.  Each level refines the next one.

Main results:

- Theorem `Stores.exec`: on an array that stores a queue every call is defined and does
  what it does to the queue.
- Theorem `exec_spec`: a call does to the list of a queue what it does to a bounded list.
- Theorem `queue_refines_bounded_list`: from an empty queue on, any sequence of calls is
  defined and gives the answers and the contents of a bounded list.
-/

namespace Hdh
namespace Sched

variable {P : Type}

/-- `struct queue_t` in memory. -/
structure QueueArray (P : Type) where
  proc : Vector (Option P) maxQueueSize
  size : Int

namespace QueueArray

/-! ## The functions -/

/-- `enqueue`. -/
def enqueue (q : QueueArray P) (p : P) : Option (QueueArray P) :=
  if q.size < maxQueueSize then
    (Cells.store q.proc q.size (some p)).map fun proc => { proc := proc, size := q.size + 1 }
  else some q

/-- `for (; i < ...; i++) q->proc[i] = q->proc[i + 1]`, for `k` iterations. -/
def shiftLoop (proc : Vector (Option P) maxQueueSize) :
    Nat → Int → Option (Vector (Option P) maxQueueSize)
  | 0, _ => some proc
  | k + 1, i =>
      (Cells.load proc (i + 1)).bind fun p =>
        (Cells.store proc i p).bind fun proc => shiftLoop proc k (i + 1)

/-- The selection loop of `dequeue`, for `k` iterations from cell `i` on. -/
def selectLoop (priority : P → Nat) (proc : Vector (Option P) maxQueueSize) :
    Nat → Int → Option P → Int → Option (Option P × Int)
  | 0, _, temp, index => some (temp, index)
  | k + 1, i, temp, index =>
      (Cells.load proc i).bind fun cell =>
        match temp, cell with
        | some t, some p =>
            if priority t > priority p then selectLoop priority proc k (i + 1) cell i
            else selectLoop priority proc k (i + 1) temp index
        | _, _ => none

/-- `dequeue` (the `MLQ_SCHED` branch): the answer, which may be NULL, and the queue. -/
def dequeue (priority : P → Nat) (q : QueueArray P) : Option (Option P × QueueArray P) :=
  let size := q.size
  if size = 0 then some (none, q)
  else
    (Cells.load q.proc 0).bind fun temp =>
      (selectLoop priority q.proc (size - 1).toNat 1 temp 0).bind fun sel =>
        (shiftLoop q.proc (size - 1 - sel.2).toNat sel.2).bind fun proc =>
          (Cells.store proc (size - 1) none).map fun proc =>
            (sel.1, { proc := proc, size := size - 1 })

variable [DecidableEq P]

/-- The search loop of `purgequeue`, for `k` iterations from cell `i` on; `none` inside of
the answer is the end of the loop. -/
def findLoop (proc : Vector (Option P) maxQueueSize) (p : P) :
    Nat → Int → Option (Option Int)
  | 0, _ => some none
  | k + 1, i =>
      (Cells.load proc i).bind fun cell =>
        if cell = some p then some (some i) else findLoop proc p k (i + 1)

/-- `purgequeue`. -/
def purgequeue (q : QueueArray P) (p : P) : Option (Option P × QueueArray P) :=
  (findLoop q.proc p q.size.toNat 0).bind fun
    | none => some (none, q)
    | some i =>
        (shiftLoop q.proc (q.size - 1 - i).toNat i).map fun proc =>
          (some p, { proc := proc, size := q.size - 1 })

end QueueArray

/-! ## Calls -/

/-- The calls, with their arguments.  The priorities of the PCBs are those at the time of
the call. -/
inductive QueueCall (P : Type)
  | enqueue (proc : P)
  | dequeue (priority : P → Nat)
  | purgequeue (proc : P)

variable [DecidableEq P]

/-- A call on an array: the answer, which is NULL for `enqueue`, and the queue. -/
def QueueArray.exec (q : QueueArray P) : QueueCall P → Option (Option P × QueueArray P)
  | .enqueue proc => (q.enqueue proc).map fun q => (none, q)
  | .dequeue priority => q.dequeue priority
  | .purgequeue proc => q.purgequeue proc

/-- A call on a queue with its invariant. -/
def QueueT.exec (q : QueueT P) : QueueCall P → Option P × QueueT P
  | .enqueue proc => (none, q.enqueue proc)
  | .dequeue priority =>
      match q.dequeue priority with
      | none => (none, q)
      | some (p, q) => (some p, q)
  | .purgequeue proc => q.purgequeue proc

/-- A call on a bounded list. -/
def QueueCall.spec (l : List P) : QueueCall P → Option P × List P
  | .enqueue proc => (none, BoundedList.push maxQueueSize l proc)
  | .dequeue priority => BoundedList.popMin priority l
  | .purgequeue proc => BoundedList.remove l proc

/-! ## Queues and bounded lists -/

/-- The answer of `purgequeue` is its argument, or NULL with no change of the queue. -/
theorem purgequeue_answer (q : QueueT P) (p : P) :
    (q.purgequeue p).1 = if p ∈ q.toList then some p else none := by
  have hspec := QueueT.findLoop_spec q p q.size 0 (by omega) (by omega)
  have hmem : p ∈ q.toList ↔ ∃ j < q.size, q.proc j = some p := by
    simp only [List.mem_iff_getElem?, QueueT.getElem?_toList]
    refine exists_congr fun j => ?_
    by_cases hj : j < q.size <;> simp [hj]
  unfold QueueT.purgequeue
  cases hfind : QueueT.findLoop q.proc p q.size 0 with
  | none =>
      rw [hfind] at hspec
      rw [if_neg fun h => ?_]
      obtain ⟨j, hj, hp⟩ := hmem.mp h
      exact hspec j hj hp
  | some n =>
      rw [hfind] at hspec
      exact (if_pos (hmem.mpr ⟨n, hspec.1, hspec.2.1⟩)).symm

/-- A call does to the list of a queue what it does to a bounded list. -/
theorem exec_spec (q : QueueT P) (c : QueueCall P) :
    c.spec q.toList = ((q.exec c).1, (q.exec c).2.toList) := by
  cases c with
  | enqueue proc =>
      rw [QueueCall.spec, QueueT.exec, QueueT.toList_enqueue, BoundedList.push,
        QueueT.length_toList]
  | dequeue priority =>
      cases hdeq : q.dequeue priority with
      | none =>
          have hnil := (QueueT.dequeue_eq_none_iff priority q).mp hdeq
          rw [QueueCall.spec, QueueT.exec, hdeq, hnil]
          rfl
      | some r =>
          obtain ⟨index, hat, hrest, hmin, hfirst⟩ := QueueT.dequeue_eq_some hdeq
          rw [QueueCall.spec, BoundedList.popMin_eq hat hmin hfirst, QueueT.exec, hdeq, hrest]
  | purgequeue proc =>
      rw [QueueCall.spec, QueueT.exec, purgequeue_answer, QueueT.toList_purgequeue,
        BoundedList.remove]
      split_ifs with hmem
      · rfl
      · rw [List.erase_of_not_mem hmem]

/-! ## Arrays and queues -/

/-- The array stores the queue. -/
structure Stores (a : QueueArray P) (q : QueueT P) : Prop where
  size_eq : a.size = q.size
  proc_eq : Cells.Holds a.proc q.proc

omit [DecidableEq P] in
/-- The shift on the array is the one on the cells. -/
theorem shiftLoop_eq {proc : Vector (Option P) maxQueueSize} {f : Nat → Option P}
    (h : Cells.Holds proc f) (k i : Nat) (hk : i + k < maxQueueSize) :
    ∃ proc', QueueArray.shiftLoop proc k i = some proc' ∧
      Cells.Holds proc' (QueueT.shiftLoop f k i) := by
  induction k generalizing proc f i with
  | zero => exact ⟨proc, rfl, h⟩
  | succ k ih =>
      obtain ⟨proc₁, hstore, h₁⟩ := Cells.store_eq h (i := i) (by omega) (f (i + 1))
      obtain ⟨proc', hloop, h'⟩ := ih h₁ (i + 1) (by omega)
      refine ⟨proc', ?_, h'⟩
      rw [QueueArray.shiftLoop, ← Int.natCast_succ, Cells.load_eq h (by omega), Option.bind_some,
        hstore, Option.bind_some, hloop]

omit [DecidableEq P] in
/-- So is the selection. -/
theorem selectLoop_eq (priority : P → Nat) {proc : Vector (Option P) maxQueueSize}
    {f : Nat → Option P} (h : Cells.Holds proc f) (k i : Nat) (hk : i + k ≤ maxQueueSize)
    (hfilled : ∀ j < i + k, (f j).isSome) (temp : P) (index : Nat) :
    QueueArray.selectLoop priority proc k i (some temp) index =
      some (some (QueueT.selectLoop priority f k i temp index).1,
        ((QueueT.selectLoop priority f k i temp index).2 : Int)) := by
  induction k generalizing i temp index with
  | zero => rfl
  | succ k ih =>
      obtain ⟨p, hp⟩ := Option.isSome_iff_exists.mp (hfilled i (by omega))
      have hnext := ih (i + 1) (by omega) fun j hj => hfilled j (by omega)
      rw [QueueArray.selectLoop, Cells.load_eq h (by omega), Option.bind_some,
        QueueT.selectLoop, hp]
      simp only [gt_iff_lt, ← Int.natCast_succ]
      split_ifs with hless
      · exact hnext p i
      · exact hnext temp index

/-- So is the search. -/
theorem findLoop_eq {proc : Vector (Option P) maxQueueSize} {f : Nat → Option P}
    (h : Cells.Holds proc f) (p : P) (k i : Nat) (hk : i + k ≤ maxQueueSize) :
    QueueArray.findLoop proc p k i =
      some ((QueueT.findLoop f p k i).map fun n : Nat => (n : Int)) := by
  induction k generalizing i with
  | zero => rfl
  | succ k ih =>
      rw [QueueArray.findLoop, Cells.load_eq h (by omega), Option.bind_some, QueueT.findLoop]
      split_ifs with hp
      · rfl
      · exact ih (i + 1) (by omega)

omit [DecidableEq P] in
/-- Closing the gap at `index`, as `dequeue` and `purgequeue` do it. -/
theorem Stores.closeGap {a : QueueArray P} {q : QueueT P} (h : Stores a q) {index : Nat}
    (hindex : index < q.size) :
    ∃ proc, QueueArray.shiftLoop a.proc (a.size - 1 - index).toNat index = some proc ∧
      Stores { proc := proc, size := a.size - 1 } (q.closeGap index) := by
  have hcount : (a.size - 1 - index).toNat = q.size - 1 - index := by
    rw [h.size_eq]
    omega
  have hmax := q.size_le
  obtain ⟨proc, hloop, hcells⟩ := shiftLoop_eq h.proc_eq (q.size - 1 - index) index (by omega)
  have hsize : a.size - 1 = ((q.size - 1 : Nat) : Int) := by
    rw [h.size_eq]
    omega
  exact ⟨proc, by rw [hcount, hloop], hsize, hcells⟩

omit [DecidableEq P] in
/-- `enqueue` stays inside of the array. -/
theorem Stores.enqueue {a : QueueArray P} {q : QueueT P} (h : Stores a q) (p : P) :
    ∃ a', a.enqueue p = some a' ∧ Stores a' (q.enqueue p) := by
  rw [QueueArray.enqueue, QueueT.enqueue, h.size_eq]
  by_cases hroom : q.size < maxQueueSize
  · obtain ⟨proc, hstore, hcells⟩ := Cells.store_eq h.proc_eq hroom (some p)
    rw [if_pos (by exact_mod_cast hroom), hstore, dif_pos hroom]
    exact ⟨_, rfl, rfl, hcells⟩
  · rw [if_neg (by exact_mod_cast hroom), dif_neg hroom]
    exact ⟨a, rfl, h⟩

omit [DecidableEq P] in
/-- The selection of `dequeue`, from cell 1 on. -/
theorem Stores.select {a : QueueArray P} {q : QueueT P} (h : Stores a q)
    (priority : P → Nat) (hpos : 0 < q.size) :
    QueueArray.selectLoop priority a.proc (a.size - 1).toNat 1 (q.proc 0) 0 =
      some (some (q.select priority hpos).1, ((q.select priority hpos).2 : Int)) := by
  have hmax := q.size_le
  have hcount : (a.size - 1).toNat = q.size - 1 := by
    rw [h.size_eq]
    omega
  have hloop := selectLoop_eq priority h.proc_eq (q.size - 1) 1 (by omega)
    (fun j hj => q.filled j (by omega)) ((q.proc 0).get (q.filled 0 hpos)) 0
  rw [Option.some_get] at hloop
  rw [hcount]
  exact hloop

/-- So does `dequeue`. -/
theorem Stores.dequeue {a : QueueArray P} {q : QueueT P} (h : Stores a q)
    (priority : P → Nat) :
    ∃ a', a.dequeue priority = some ((q.exec (.dequeue priority)).1, a') ∧
      Stores a' (q.exec (.dequeue priority)).2 := by
  rw [QueueT.exec, QueueT.dequeue, QueueArray.dequeue]
  by_cases hempty : q.size = 0
  · rw [dif_pos hempty]
    exact ⟨a, if_pos (by rw [h.size_eq, hempty, Int.natCast_zero]), h⟩
  · have hpos := Nat.pos_of_ne_zero hempty
    have hmax := q.size_le
    have hne : a.size ≠ 0 := by
      rw [h.size_eq]
      omega
    have hload : Cells.load a.proc 0 = some (q.proc 0) :=
      Cells.load_eq h.proc_eq (i := 0) (by omega)
    obtain ⟨proc, hshift, hgap⟩ := h.closeGap (q.select_spec priority hpos).index_lt
    have hlast : a.size - 1 = ((q.closeGap (q.select priority hpos).2).size : Int) :=
      hgap.size_eq
    have hroom : (q.closeGap (q.select priority hpos).2).size < maxQueueSize :=
      lt_of_lt_of_le (Nat.sub_lt hpos Nat.one_pos) q.size_le
    obtain ⟨proc', hstore, hcells⟩ := Cells.store_eq hgap.proc_eq hroom none
    rw [dif_neg hempty]
    refine ⟨{ proc := proc', size := a.size - 1 }, ?_, hlast, hcells⟩
    rw [if_neg hne, hload, Option.bind_some, h.select priority hpos, Option.bind_some, hshift,
      Option.bind_some, hlast, hstore, Option.map_some]

/-- So does `purgequeue`. -/
theorem Stores.purgequeue {a : QueueArray P} {q : QueueT P} (h : Stores a q) (p : P) :
    ∃ a', a.purgequeue p = some ((q.purgequeue p).1, a') ∧
      Stores a' (q.purgequeue p).2 := by
  have hspec := QueueT.findLoop_spec q p q.size 0 (by omega) (by omega)
  have hfind : QueueArray.findLoop a.proc p a.size.toNat 0 =
      some ((QueueT.findLoop q.proc p q.size 0).map fun n : Nat => (n : Int)) := by
    rw [h.size_eq, Int.toNat_natCast]
    exact findLoop_eq h.proc_eq p q.size 0 (by rw [Nat.zero_add]; exact q.size_le)
  rw [QueueArray.purgequeue, hfind, Option.bind_some, QueueT.purgequeue]
  cases hres : QueueT.findLoop q.proc p q.size 0 with
  | none => exact ⟨a, rfl, h⟩
  | some n =>
      rw [hres] at hspec
      obtain ⟨proc, hshift, hgap⟩ := h.closeGap hspec.1
      refine ⟨_, ?_, hgap⟩
      rw [Option.map_some]
      simp only [hshift, Option.map_some]

/-- On an array that stores a queue every call is defined, and it does what it does to the
queue. -/
theorem Stores.exec {a : QueueArray P} {q : QueueT P} (h : Stores a q) (c : QueueCall P) :
    ∃ a', a.exec c = some ((q.exec c).1, a') ∧ Stores a' (q.exec c).2 := by
  cases c with
  | enqueue proc =>
      obtain ⟨a', henqueue, hstores⟩ := h.enqueue proc
      refine ⟨a', ?_, hstores⟩
      rw [QueueArray.exec, henqueue]
      rfl
  | dequeue priority => exact h.dequeue priority
  | purgequeue proc => exact h.purgequeue proc

/-! ## Runs -/

omit [DecidableEq P] in
/-- The cells in use of a stored queue hold its list. -/
theorem Stores.take_eq {a : QueueArray P} {q : QueueT P} (h : Stores a q) :
    a.proc.toList.take a.size.toNat = q.toList.map some := by
  apply List.ext_getElem?
  intro i
  rw [h.size_eq, Int.toNat_natCast, List.getElem?_take, List.getElem?_map,
    QueueT.getElem?_toList, Vector.getElem?_toList]
  split_ifs with hi
  · rw [h.proc_eq i (lt_of_lt_of_le hi q.size_le)]
    obtain ⟨p, hp⟩ := Option.isSome_iff_exists.mp (q.filled i hi)
    rw [hp, Option.map_some]
  · rfl

/-- The queue that an array of size 0 stores, whatever its cells hold. -/
def QueueArray.emptied (a : QueueArray P) : QueueT P where
  proc := fun i => (a.proc[i]?).join
  size := 0
  size_le := Nat.zero_le _
  filled := fun i hi => absurd hi (Nat.not_lt_zero i)

omit [DecidableEq P] in
/-- An array of size 0 stores the empty queue. -/
theorem stores_emptied {a : QueueArray P} (hsize : a.size = 0) : Stores a a.emptied := by
  refine ⟨hsize, fun i hi => ?_⟩
  show a.proc[i]? = some (a.proc[i]?).join
  rw [Vector.getElem?_eq_getElem hi, Option.join_some]

/-- The list is that of a queue which the array stores. -/
def Represents (a : QueueArray P) (l : List P) : Prop :=
  ∃ q, Stores a q ∧ q.toList = l

/-- Each call does to the list what it is specified to do. -/
theorem Represents.exec {a : QueueArray P} {l : List P} (h : Represents a l)
    (c : QueueCall P) :
    ∃ a', a.exec c = some ((c.spec l).1, a') ∧ Represents a' (c.spec l).2 := by
  obtain ⟨q, hstores, rfl⟩ := h
  obtain ⟨a', hexec, hstores'⟩ := hstores.exec c
  rw [exec_spec]
  exact ⟨a', hexec, _, hstores', rfl⟩

omit [DecidableEq P] in
/-- The size is in range, and the list is in the cells below it. -/
theorem Represents.bounds {a : QueueArray P} {l : List P} (h : Represents a l) :
    0 ≤ a.size ∧ a.size ≤ maxQueueSize ∧
      a.proc.toList.take a.size.toNat = l.map some := by
  obtain ⟨q, hstores, rfl⟩ := h
  refine ⟨?_, ?_, hstores.take_eq⟩
  · rw [hstores.size_eq]
    exact Int.natCast_nonneg _
  · rw [hstores.size_eq]
    exact Int.ofNat_le.mpr q.size_le

/-- From a queue with `size` 0 on, every sequence of calls is defined.  It gives the answers
of a bounded list, and the cells below `size` hold the elements of this list. -/
theorem queue_refines_bounded_list (a : QueueArray P) (hsize : a.size = 0)
    (cs : List (QueueCall P)) :
    ∃ a', Lts.calls QueueArray.exec a cs =
        some ((Lts.answers QueueCall.spec [] cs).1, a') ∧
      0 ≤ a'.size ∧ a'.size ≤ maxQueueSize ∧
      a'.proc.toList.take a'.size.toNat =
        (Lts.answers QueueCall.spec [] cs).2.map some := by
  have hempty : Represents a [] :=
    ⟨a.emptied, stores_emptied hsize, List.eq_nil_of_length_eq_zero (QueueT.length_toList _)⟩
  obtain ⟨a', hcalls, hrep⟩ :=
    Lts.calls_refine (fun _ _ c h => Represents.exec h c) hempty cs
  exact ⟨a', hcalls, hrep.bounds⟩

/-- Three PCBs, of which the second one has the least priority and the others tie, in an
array with stale cells. -/
theorem queue_refines_bounded_list_six_calls :
    let a : QueueArray Nat := { proc := Vector.replicate maxQueueSize (some 99), size := 0 }
    ∃ a', Lts.calls QueueArray.exec a
        [.enqueue 12, .enqueue 21, .enqueue 32, .dequeue (fun p => p % 10), .purgequeue 99,
          .dequeue (fun p => p % 10)] =
        some ([none, none, none, some 21, none, some 12], a') ∧
      a'.proc.toList.take a'.size.toNat = [some 32] := by
  intro a
  obtain ⟨a', hcalls, -, -, htake⟩ := queue_refines_bounded_list a rfl
    [.enqueue 12, .enqueue 21, .enqueue 32, .dequeue (fun p => p % 10), .purgequeue 99,
      .dequeue (fun p => p % 10)]
  exact ⟨a', hcalls.trans rfl, htake.trans rfl⟩

end Sched
end Hdh
