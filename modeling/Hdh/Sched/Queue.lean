import Mathlib.Data.List.Basic
import Mathlib.Data.List.OfFn
import Mathlib.Data.List.Perm.Basic
import Mathlib.Logic.Function.Basic

/-!
# The process queue

`queue_t` is a fixed array of `MAX_QUEUE_SIZE` PCB pointers and the number of
cells in use.  The operations work in place: `enqueue` drops its argument
silently when the array is full, `dequeue` selects the first PCB whose
`priority` is minimal and closes the gap by shifting, and `purgequeue` removes
the first occurrence of a given PCB.

Main results:

- Theorem `toList_enqueue`: insertion appends when there is room.
- Theorem `dequeue_eq_some`: removal takes out the first element of minimal
  priority and keeps the order of the others.
- Theorem `toList_purgequeue`: purging erases the first occurrence.
-/

namespace Hdh
namespace Sched

variable {P : Type}

/-- `MAX_QUEUE_SIZE`. -/
def maxQueueSize : Nat := 50

/-- `struct queue_t`.  A cell holds a PCB pointer or NULL; the cells below
`size` are never NULL. -/
structure QueueT (P : Type) where
  proc : Nat → Option P
  size : Nat
  size_le : size ≤ maxQueueSize
  filled : ∀ i < size, (proc i).isSome

namespace QueueT

/-- A queue with `size` set to 0; the cells are all NULL. -/
def cleared : QueueT P where
  proc := fun _ => none
  size := 0
  size_le := Nat.zero_le _
  filled := by simp

/-- The PCBs of the queue, from the first cell to the last one in use. -/
def toList (q : QueueT P) : List P :=
  List.ofFn fun i : Fin q.size => (q.proc i).get (q.filled i i.isLt)

/-- The list has as many elements as the queue. -/
@[simp]
theorem length_toList (q : QueueT P) : q.toList.length = q.size := by
  simp [toList]

/-- A cleared queue is the empty list. -/
@[simp]
theorem toList_cleared : (cleared : QueueT P).toList = [] := by
  simp [toList, cleared]

/-- The elements of the list are the cells below `size`. -/
theorem getElem?_toList (q : QueueT P) (i : Nat) :
    q.toList[i]? = if i < q.size then q.proc i else none := by
  by_cases h : i < q.size
  · simp [toList, h]
  · simp [toList, h]

/-- The list of a queue is determined by its cells below `size`. -/
theorem toList_eq_of_getElem? {q : QueueT P} {l : List P}
    (h : ∀ i, (if i < q.size then q.proc i else none) = l[i]?) :
    q.toList = l := by
  apply List.ext_getElem?
  intro i
  rw [getElem?_toList, h]

/-! ## `empty` and `enqueue` -/

/-- `empty`. -/
def empty (q : QueueT P) : Bool :=
  q.size == 0

/-- `empty` tests for the empty list. -/
theorem empty_iff (q : QueueT P) : q.empty = true ↔ q.toList = [] := by
  rw [← List.length_eq_zero_iff, length_toList, empty, beq_iff_eq]

/-- `enqueue`: nothing happens when the array is full. -/
def enqueue (q : QueueT P) (p : P) : QueueT P :=
  if h : q.size < maxQueueSize then
    { proc := Function.update q.proc q.size (some p)
      size := q.size + 1
      size_le := h
      filled := by
        intro i hi
        by_cases hlast : i = q.size
        · simp [hlast]
        · simpa [hlast] using q.filled i (by omega) }
  else q

/-- Insertion appends when there is room and is silently dropped otherwise. -/
theorem toList_enqueue (q : QueueT P) (p : P) :
    (q.enqueue p).toList =
      if q.size < maxQueueSize then q.toList ++ [p] else q.toList := by
  unfold enqueue
  split_ifs with h
  · apply toList_eq_of_getElem?
    intro i
    rw [List.getElem?_append, length_toList, getElem?_toList]
    rcases lt_trichotomy i q.size with hlt | heq | hgt
    · have hne : i ≠ q.size := Nat.ne_of_lt hlt
      simp [hlt, hne, Nat.lt_succ_of_lt hlt]
    · simp [heq]
    · have hsub : i - q.size ≠ 0 := by omega
      have hout : ¬ i < q.size + 1 := by omega
      have hge : ¬ i < q.size := by omega
      cases hk : i - q.size with
      | zero => exact absurd hk hsub
      | succ k => simp [hout, hge]
  · rfl

/-! ## Closing the gap -/

/-- `for (; i < ...; i++) q->proc[i] = q->proc[i + 1]`, for `k` iterations. -/
def shiftLoop (proc : Nat → Option P) : Nat → Nat → (Nat → Option P)
  | 0, _ => proc
  | k + 1, i => shiftLoop (Function.update proc i (proc (i + 1))) k (i + 1)

/-- The loop moves the cells from `i` on down by one. -/
theorem shiftLoop_apply (proc : Nat → Option P) (k i j : Nat) :
    shiftLoop proc k i j =
      if i ≤ j ∧ j < i + k then proc (j + 1) else proc j := by
  induction k generalizing proc i with
  | zero =>
      have h : ¬ (i ≤ j ∧ j < i + 0) := by omega
      rw [if_neg h]
      rfl
  | succ k ih =>
      rw [shiftLoop, ih]
      rcases lt_trichotomy j i with hlt | rfl | hgt
      · have h₁ : ¬ (i + 1 ≤ j ∧ j < i + 1 + k) := by omega
        have h₂ : ¬ (i ≤ j ∧ j < i + (k + 1)) := by omega
        rw [if_neg h₁, if_neg h₂, Function.update_of_ne (by omega)]
      · have h₁ : ¬ (j + 1 ≤ j ∧ j < j + 1 + k) := by omega
        have h₂ : j ≤ j ∧ j < j + (k + 1) := by omega
        rw [if_neg h₁, if_pos h₂, Function.update_self]
      · by_cases hin : j < i + (k + 1)
        · rw [if_pos (by omega), if_pos (by omega), Function.update_of_ne (by omega)]
        · rw [if_neg (by omega), if_neg (by omega), Function.update_of_ne (by omega)]

/-- Every cell below `size - 1` is in use after the gap at `index` is closed. -/
theorem shiftLoop_filled (q : QueueT P) (index : Nat) :
    ∀ i < q.size - 1,
      (shiftLoop q.proc (q.size - 1 - index) index i).isSome := by
  intro i hi
  rw [shiftLoop_apply]
  split_ifs with h
  · exact q.filled _ (by omega)
  · exact q.filled _ (by omega)

/-- The shift loop shared by `dequeue` and `purgequeue`, with the decrement of
`size` that follows it. -/
def closeGap (q : QueueT P) (index : Nat) : QueueT P where
  proc := shiftLoop q.proc (q.size - 1 - index) index
  size := q.size - 1
  size_le := (Nat.sub_le _ _).trans q.size_le
  filled := shiftLoop_filled q index

/-- Closing the gap at `index` erases that position from the list. -/
theorem toList_closeGap {q : QueueT P} {index : Nat} (hindex : index < q.size) :
    (q.closeGap index).toList = q.toList.eraseIdx index := by
  apply toList_eq_of_getElem?
  intro i
  have hsize : (q.closeGap index).size = q.size - 1 := rfl
  have hproc : (q.closeGap index).proc i =
      shiftLoop q.proc (q.size - 1 - index) index i := rfl
  rw [List.getElem?_eraseIdx, getElem?_toList, getElem?_toList]
  by_cases hi : i < (q.closeGap index).size
  · rw [if_pos hi, hproc, shiftLoop_apply]
    by_cases hlt : i < index
    · rw [if_neg (by omega), if_pos hlt, if_pos (by omega)]
    · rw [if_pos (by omega), if_neg hlt, if_pos (by omega)]
  · rw [if_neg hi]
    by_cases hlt : i < index
    · omega
    · rw [if_neg hlt, if_neg (by omega)]

/-- `q->proc[q->size] = NULL`, for the cell just behind those in use. -/
def nullCell (q : QueueT P) : QueueT P where
  proc := Function.update q.proc q.size none
  size := q.size
  size_le := q.size_le
  filled := by
    intro i hi
    rw [Function.update_of_ne (Nat.ne_of_lt hi)]
    exact q.filled i hi

/-- The cell behind the last one does not count. -/
@[simp]
theorem toList_nullCell (q : QueueT P) : q.nullCell.toList = q.toList := by
  apply toList_eq_of_getElem?
  intro i
  rw [getElem?_toList]
  by_cases hi : i < q.size
  · simp [nullCell, hi, Function.update_of_ne (Nat.ne_of_lt hi)]
  · simp [nullCell, hi]

/-! ## `dequeue` -/

/-- The selection loop of `dequeue`, for `k` iterations from cell `i` on.  The
loop only reads cells below `size`, which are not NULL. -/
def selectLoop (priority : P → Nat) (proc : Nat → Option P) :
    Nat → Nat → P → Nat → P × Nat
  | 0, _, temp, index => (temp, index)
  | k + 1, i, temp, index =>
      match proc i with
      | none => selectLoop priority proc k (i + 1) temp index
      | some p =>
          if priority p < priority temp then
            selectLoop priority proc k (i + 1) p i
          else selectLoop priority proc k (i + 1) temp index

/-- What the selection loop has found after looking at the cells below `i`. -/
structure Selected (priority : P → Nat) (q : QueueT P) (i : Nat) (temp : P)
    (index : Nat) : Prop where
  index_lt : index < i
  at_index : q.proc index = some temp
  minimal : ∀ j < i, ∀ p, q.proc j = some p → priority temp ≤ priority p
  first : ∀ j < index, ∀ p, q.proc j = some p → priority temp < priority p

/-- The loop goes on to select among all the cells. -/
theorem selectLoop_spec (priority : P → Nat) (q : QueueT P) (k i : Nat)
    (temp : P) (index : Nat) (h : Selected priority q i temp index)
    (hk : i + k = q.size) :
    Selected priority q q.size
      (selectLoop priority q.proc k i temp index).1
      (selectLoop priority q.proc k i temp index).2 := by
  induction k generalizing i temp index with
  | zero =>
      have hi : i = q.size := by omega
      exact hi ▸ h
  | succ k ih =>
      rw [selectLoop]
      split
      · rename_i hnull
        have hsome := q.filled i (by omega)
        rw [hnull] at hsome
        cases hsome
      · rename_i p hp
        -- the cells below `i + 1` are those below `i` and cell `i` itself
        have hcell : ∀ j < i + 1, ∀ r, q.proc j = some r →
            priority temp ≤ priority r ∨ r = p := by
          intro j hj r hr
          rcases Nat.lt_succ_iff_lt_or_eq.mp hj with hlt | rfl
          · exact Or.inl (h.minimal j hlt r hr)
          · exact Or.inr (by rw [hp] at hr; exact (Option.some.inj hr).symm)
        split_ifs with hless
        · refine ih (i + 1) p i ⟨by omega, hp, ?_, ?_⟩ (by omega)
          · intro j hj r hr
            rcases hcell j hj r hr with hle | rfl
            · omega
            · exact le_rfl
          · intro j hj r hr
            have := h.minimal j hj r hr
            omega
        · refine ih (i + 1) temp index ⟨by have := h.index_lt; omega,
            h.at_index, ?_, h.first⟩ (by omega)
          intro j hj r hr
          rcases hcell j hj r hr with hle | rfl
          · exact hle
          · omega

/-- The PCB that `dequeue` selects, and its cell. -/
def select (priority : P → Nat) (q : QueueT P) (h : 0 < q.size) : P × Nat :=
  selectLoop priority q.proc (q.size - 1) 1 ((q.proc 0).get (q.filled 0 h)) 0

/-- `dequeue` selects the first cell of minimal priority. -/
theorem select_spec (priority : P → Nat) (q : QueueT P) (h : 0 < q.size) :
    Selected priority q q.size (q.select priority h).1
      (q.select priority h).2 := by
  have hstart : Selected priority q 1 ((q.proc 0).get (q.filled 0 h)) 0 := by
    refine ⟨Nat.one_pos, (Option.some_get _).symm, ?_, by omega⟩
    intro j hj r hr
    have hj0 : j = 0 := by omega
    subst hj0
    simp [hr]
  exact selectLoop_spec priority q (q.size - 1) 1 _ 0 hstart (by omega)

/-- `dequeue` (the `MLQ_SCHED` branch); `none` is the NULL answer of an empty
queue. -/
def dequeue (priority : P → Nat) (q : QueueT P) : Option (P × QueueT P) :=
  if h : q.size = 0 then none
  else
    let sel := q.select priority (Nat.pos_of_ne_zero h)
    some (sel.1, (q.closeGap sel.2).nullCell)

/-- `dequeue` answers NULL on an empty queue only. -/
theorem dequeue_eq_none_iff (priority : P → Nat) (q : QueueT P) :
    q.dequeue priority = none ↔ q.toList = [] := by
  rw [← empty_iff, empty, beq_iff_eq, dequeue]
  split_ifs with h <;> simp [h]

/-- `dequeue` takes out the first element of minimal priority and keeps the
order of the others. -/
theorem dequeue_eq_some {priority : P → Nat} {q q' : QueueT P} {p : P}
    (h : q.dequeue priority = some (p, q')) :
    ∃ index, q.toList[index]? = some p ∧
      q'.toList = q.toList.eraseIdx index ∧
      (∀ r ∈ q.toList, priority p ≤ priority r) ∧
      ∀ j < index, ∀ r, q.toList[j]? = some r → priority p < priority r := by
  unfold dequeue at h
  split_ifs at h with hsize
  have hsel := q.select_spec priority (Nat.pos_of_ne_zero hsize)
  cases h
  refine ⟨(q.select priority (Nat.pos_of_ne_zero hsize)).2, ?_, ?_, ?_, ?_⟩
  · rw [getElem?_toList, if_pos hsel.index_lt, hsel.at_index]
  · rw [toList_nullCell, toList_closeGap hsel.index_lt]
  · intro r hr
    obtain ⟨j, hj⟩ := List.mem_iff_getElem?.mp hr
    rw [getElem?_toList] at hj
    split_ifs at hj with hlt
    exact hsel.minimal j hlt r hj
  · intro j hj r hr
    rw [getElem?_toList, if_pos (hj.trans hsel.index_lt)] at hr
    exact hsel.first j hj r hr

/-- The removed element and the remaining ones are the old elements. -/
theorem dequeue_perm {priority : P → Nat} {q q' : QueueT P} {p : P}
    (h : q.dequeue priority = some (p, q')) :
    q.toList.Perm (p :: q'.toList) := by
  obtain ⟨index, hp, hrest, -, -⟩ := dequeue_eq_some h
  obtain ⟨hlt, hget⟩ := List.getElem?_eq_some_iff.mp hp
  rw [hrest, ← hget]
  exact (List.getElem_cons_eraseIdx_perm hlt).symm

/-! ## `purgequeue` -/

variable [DecidableEq P]

/-- The search loop of `purgequeue`, for `k` iterations from cell `i` on. -/
def findLoop (proc : Nat → Option P) (p : P) : Nat → Nat → Option Nat
  | 0, _ => none
  | k + 1, i => if proc i = some p then some i else findLoop proc p k (i + 1)

/-- `purgequeue`; the cell that becomes free is not cleared.  `none` is the NULL
answer for an absent PCB. -/
def purgequeue (q : QueueT P) (p : P) : Option P × QueueT P :=
  match findLoop q.proc p q.size 0 with
  | none => (none, q)
  | some i => (some p, q.closeGap i)

/-- The loop finds the first cell that holds the process. -/
theorem findLoop_spec (q : QueueT P) (p : P) (k i : Nat)
    (hk : i + k = q.size) (hbefore : ∀ j < i, q.proc j ≠ some p) :
    match findLoop q.proc p k i with
    | none => ∀ j < q.size, q.proc j ≠ some p
    | some n => n < q.size ∧ q.proc n = some p ∧ ∀ j < n, q.proc j ≠ some p := by
  induction k generalizing i with
  | zero =>
      have hi : i = q.size := by omega
      exact hi ▸ hbefore
  | succ k ih =>
      rw [findLoop]
      by_cases hp : q.proc i = some p
      · simp only [hp, if_true]
        exact ⟨by omega, trivial, hbefore⟩
      · simp only [hp, if_false]
        refine ih (i + 1) (by omega) ?_
        intro j hj
        rcases Nat.lt_succ_iff_lt_or_eq.mp hj with hlt | rfl
        · exact hbefore j hlt
        · exact hp

/-- `purgequeue` erases the first occurrence of its argument. -/
theorem toList_purgequeue (q : QueueT P) (p : P) :
    (q.purgequeue p).2.toList = q.toList.erase p := by
  have hspec := findLoop_spec q p q.size 0 (by omega) (by omega)
  unfold purgequeue
  cases hfind : findLoop q.proc p q.size 0 with
  | none =>
      rw [hfind] at hspec
      have habsent : p ∉ q.toList := by
        intro hmem
        obtain ⟨j, hj⟩ := List.mem_iff_getElem?.mp hmem
        rw [getElem?_toList] at hj
        split_ifs at hj with hlt
        exact hspec j hlt hj
      exact (List.erase_of_not_mem habsent).symm
  | some n =>
      rw [hfind] at hspec
      obtain ⟨hlt, hat, hfirst⟩ := hspec
      have hidx : q.toList.idxOf p = n := by
        have hlen : n < q.toList.length := by simpa using hlt
        refine (List.findIdx_eq hlen).mpr ⟨?_, ?_⟩
        · simp [toList, hat]
        · intro j hj
          have hne := hfirst j hj
          simp only [toList, List.getElem_ofFn, beq_eq_false_iff_ne, ne_eq]
          intro heq
          exact hne (by rw [← heq, Option.some_get])
      simp only [List.erase_eq_eraseIdx_of_idxOf hidx]
      exact toList_closeGap hlt

end QueueT
end Sched
end Hdh
