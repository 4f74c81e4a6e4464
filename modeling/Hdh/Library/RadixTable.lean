import Mathlib.Data.List.Induction
import Mathlib.Order.Nat
import Mathlib.Logic.Function.Basic

/-!
# Radix tables in a heap

A table of depth `d` is a tree of arrays in a heap: the cells of an array at one
of the first `d` levels hold the address of an array of the next level or the
null address, and the cells of the arrays at level `d` hold the values.  A walk
follows a path of `d` indices from the root; an allocating walk inserts a cleared
array wherever it meets a null address.

Such a table implements a map from paths to values as long as no array is
reached by two paths.  This holds of the empty table, and allocating walks and
writes at the last level keep it, when the allocator only answers addresses that
are not null and have not been answered before.

Main results:

- Theorem `walk_link`: linking a new array adds one path and changes no other.
- Theorem `walkAlloc_spec`: an allocating walk reaches its path, and no value
  changes.
- Theorem `Table.get_update`: an update changes the value at its key only.
-/

namespace Radix

variable {A I : Type} [DecidableEq A] [DecidableEq I]

/-- An allocator: its answer to each call, in order. -/
structure Malloc (A : Type) (null : A) where
  addr : Nat → A
  ne_null : ∀ k, addr k ≠ null
  injective : Function.Injective addr

/-- The cells of the arrays, and the number of allocations so far. -/
structure Heap (A I : Type) where
  cell : A → I → A
  calls : Nat

variable {null : A} (m : Malloc A null)

namespace Heap

/-- Allocate an array and clear its cells. -/
def alloc (h : Heap A I) : A × Heap A I :=
  (m.addr h.calls,
    { cell := Function.update h.cell (m.addr h.calls) fun _ => null
      calls := h.calls + 1 })

/-- Write one cell. -/
def store (h : Heap A I) (t : A) (i : I) (v : A) : Heap A I :=
  { h with cell := Function.update h.cell t (Function.update (h.cell t) i v) }

/-- Allocate a new array and link it at a cell. -/
def link (h : Heap A I) (t : A) (i : I) : A × Heap A I :=
  ((h.alloc m).1, (h.alloc m).2.store t i (h.alloc m).1)

/-- The allocating walk. -/
def walkAlloc : Heap A I → A → List I → A × Heap A I
  | h, t, [] => (t, h)
  | h, t, i :: path =>
      if h.cell t i = null then
        walkAlloc (h.link m t i).2 (h.link m t i).1 path
      else walkAlloc h (h.cell t i) path

variable (null) in
/-- The walk that does not allocate; `none` when it meets a null address. -/
def walk (h : Heap A I) : A → List I → Option A
  | t, [] => some t
  | t, i :: path => if h.cell t i = null then none else walk h (h.cell t i) path

variable (null) in
/-- The value at a path and an index of the last level. -/
def lookup (h : Heap A I) (t : A) (path : List I) (i : I) : A :=
  match h.walk null t path with
  | none => null
  | some l => h.cell l i

/-- The arrays that are reached from the root have been allocated, and each is
reached by one path only. -/
structure WellFormed (d : Nat) (root : A) (h : Heap A I) : Prop where
  allocated : ∀ p a, p.length ≤ d → h.walk null root p = some a →
    ∃ k < h.calls, a = m.addr k
  separated : ∀ p q a, p.length ≤ d → q.length ≤ d →
    h.walk null root p = some a → h.walk null root q = some a → p = q

variable {m} {h : Heap A I} {d : Nat} {root t a b : A} {p q : List I} {i j : I}

/-! ## Cells -/

omit [DecidableEq I] in
/-- A new array leaves the others alone. -/
theorem cell_alloc_ne (hb : b ≠ m.addr h.calls) : (h.alloc m).2.cell b = h.cell b :=
  Function.update_of_ne hb _ _

omit [DecidableEq I] in
/-- A new array is cleared. -/
@[simp]
theorem cell_alloc_self : (h.alloc m).2.cell (m.addr h.calls) i = null := by
  simp [alloc]

/-- A cell holds what has been stored in it. -/
@[simp]
theorem cell_store_self (v : A) : (h.store t i v).cell t i = v := by
  simp [store]

/-- The other cells stay. -/
theorem cell_store_ne (v : A) (hb : ¬ (b = t ∧ j = i)) :
    (h.store t i v).cell b j = h.cell b j := by
  by_cases hbt : b = t
  · subst hbt
    have hji : j ≠ i := fun hji => hb ⟨rfl, hji⟩
    simp [store, hji]
  · simp [store, hbt]

/-! ## Walks -/

omit [DecidableEq I] in
/-- The empty path ends where it starts. -/
@[simp]
theorem walk_nil : h.walk null t [] = some t := rfl

omit [DecidableEq I] in
/-- The last step of a walk. -/
theorem walk_concat : h.walk null t (p ++ [i]) = (h.walk null t p).bind fun b =>
    if h.cell b i = null then none else some (h.cell b i) := by
  induction p generalizing t with
  | nil => rfl
  | cons j p ih =>
      simp only [List.cons_append, walk]
      split_ifs
      · rfl
      · exact ih

omit [DecidableEq I] in
/-- A path goes on by one index, unless the cell is null. -/
theorem walk_concat_some (hp : h.walk null t p = some b) :
    h.walk null t (p ++ [i]) =
      if h.cell b i = null then none else some (h.cell b i) := by
  rw [walk_concat, hp]
  rfl

omit [DecidableEq I] in
/-- A path that is missing is so further down. -/
theorem walk_concat_none (hp : h.walk null t p = none) :
    h.walk null t (p ++ [i]) = none := by
  rw [walk_concat, hp]
  rfl

/-! ## Linking a new array -/

omit [DecidableEq I] in
/-- The next answer of `malloc` is no array that a path leads to. -/
theorem WellFormed.ne_fresh (hwf : WellFormed m d root h) (hlen : p.length ≤ d)
    (hp : h.walk null root p = some a) : a ≠ m.addr h.calls := by
  obtain ⟨k, hk, rfl⟩ := hwf.allocated p a hlen hp
  exact fun heq => Nat.ne_of_lt hk (m.injective heq)

/-- A cell of an array in the tree after a new array has been linked. -/
theorem cell_link (hwf : WellFormed m d root h) (hlen : p.length ≤ d)
    (hp : h.walk null root p = some b) (hb : ¬ (b = t ∧ j = i)) :
    (h.link m t i).2.cell b j = h.cell b j := by
  rw [link, cell_store_ne _ hb, cell_alloc_ne (hwf.ne_fresh hlen hp)]

/-- The new array is still cleared when it has been entered. -/
theorem cell_link_fresh (hne : m.addr h.calls ≠ t) :
    (h.link m t i).2.cell (m.addr h.calls) j = null := by
  rw [link, cell_store_ne _ (fun hb => hne hb.1), cell_alloc_self]

/-- Linking a new array adds one path and changes no other walk. -/
theorem walk_link (hwf : WellFormed m d root h) (hlen : p.length < d)
    (hp : h.walk null root p = some t) (hnull : h.cell t i = null)
    (hq : q.length ≤ d) :
    (h.link m t i).2.walk null root q =
      if q = p ++ [i] then some (h.link m t i).1 else h.walk null root q := by
  have hfresh : m.addr h.calls ≠ t := (hwf.ne_fresh hlen.le hp).symm
  induction q using List.reverseRecOn with
  | nil => simp
  | append_singleton r j ih =>
      simp only [List.length_append, List.length_singleton] at hq
      have hr := ih (by omega)
      by_cases hrp : r = p ++ [i]
      · -- behind the new array, whose cells are null
        rw [if_pos hrp] at hr
        have hlong : r ++ [j] ≠ p ++ [i] := by
          rw [hrp]
          intro heq
          have := congrArg List.length heq
          simp at this
        have hold : h.walk null root r = none := by
          rw [hrp, walk_concat_some hp, if_pos hnull]
        rw [if_neg hlong, walk_concat_some hr, walk_concat_none hold]
        exact if_pos (cell_link_fresh hfresh)
      · rw [if_neg hrp] at hr
        cases hold : h.walk null root r with
        | none =>
            rw [hold] at hr
            have hne : r ++ [j] ≠ p ++ [i] := by
              intro heq
              rw [(List.append_inj' heq rfl).1, hp] at hold
              cases hold
            rw [if_neg hne, walk_concat_none hr, walk_concat_none hold]
        | some b =>
            rw [hold] at hr
            by_cases heq : r ++ [j] = p ++ [i]
            · obtain ⟨rfl, hji⟩ := List.append_inj' heq rfl
              obtain rfl : j = i := by simpa using hji
              obtain rfl : b = t := by
                rw [hp] at hold
                exact (Option.some.inj hold).symm
              rw [if_pos rfl, walk_concat_some hr, link, cell_store_self]
              exact if_neg (m.ne_null _)
            · have hcell : ¬ (b = t ∧ j = i) := by
                rintro ⟨rfl, rfl⟩
                exact heq (by rw [hwf.separated r p b (by omega) hlen.le hold hp])
              rw [if_neg heq, walk_concat_some hr, walk_concat_some hold,
                cell_link hwf (by omega) hold hcell]

/-- A new array keeps the table well formed. -/
theorem WellFormed.link (hwf : WellFormed m d root h) (hlen : p.length < d)
    (hp : h.walk null root p = some t) (hnull : h.cell t i = null) :
    WellFormed m d root (h.link m t i).2 := by
  have hwalk := fun q (hq : q.length ≤ d) => walk_link hwf hlen hp hnull (q := q) hq
  have hnew : ∀ q a, q.length ≤ d → h.walk null root q = some a →
      (h.link m t i).1 ≠ a := by
    intro q a hq ha
    exact (hwf.ne_fresh hq ha).symm
  constructor
  · intro q a hq ha
    rw [hwalk q hq] at ha
    split_ifs at ha with hqp
    · exact ⟨h.calls, Nat.lt_succ_self _, (Option.some.inj ha).symm⟩
    · obtain ⟨k, hk, rfl⟩ := hwf.allocated q a hq ha
      exact ⟨k, Nat.lt_succ_of_lt hk, rfl⟩
  · intro q r a hq hr hqa hra
    rw [hwalk q hq] at hqa
    rw [hwalk r hr] at hra
    split_ifs at hqa hra with hqp hrp hrp
    · rw [hqp, hrp]
    · exact absurd (Option.some.inj hqa) (hnew r a hr hra)
    · exact absurd (Option.some.inj hra) (hnew q a hq hqa)
    · exact hwf.separated q r a hq hr hqa hra

/-- A new array changes no value. -/
theorem lookup_link (hwf : WellFormed m d root h) (hlen : p.length < d)
    (hp : h.walk null root p = some t) (hnull : h.cell t i = null)
    (hq : q.length = d) :
    (h.link m t i).2.lookup null root q j = h.lookup null root q j := by
  have hfresh : m.addr h.calls ≠ t := (hwf.ne_fresh hlen.le hp).symm
  unfold lookup
  rw [walk_link hwf hlen hp hnull hq.le]
  split_ifs with hqp
  · have hold : h.walk null root q = none := by
      rw [hqp, walk_concat_some hp, if_pos hnull]
    rw [hold]
    exact cell_link_fresh hfresh
  · cases hold : h.walk null root q with
    | none => rfl
    | some b =>
        apply cell_link hwf hq.le hold
        rintro ⟨rfl, -⟩
        have := congrArg List.length (hwf.separated q p b hq.le hlen.le hold hp)
        omega

/-! ## The allocating walk -/

/-- An allocating walk reaches its path, keeps the table well formed, and changes
no value. -/
theorem walkAlloc_spec (hwf : WellFormed m d root h)
    (hp : h.walk null root p = some t) (path : List I)
    (hlen : p.length + path.length ≤ d) :
    WellFormed m d root (h.walkAlloc m t path).2 ∧
      (h.walkAlloc m t path).2.walk null root (p ++ path) =
        some (h.walkAlloc m t path).1 ∧
      ∀ q j, q.length = d →
        (h.walkAlloc m t path).2.lookup null root q j = h.lookup null root q j := by
  induction path generalizing h t p with
  | nil => exact ⟨hwf, by simpa [walkAlloc] using hp, fun _ _ _ => rfl⟩
  | cons i path ih =>
      simp only [List.length_cons] at hlen
      have hsplit : p ++ i :: path = (p ++ [i]) ++ path := by simp
      simp only [walkAlloc]
      split_ifs with hnull
      · have hstep := walk_link hwf (i := i) (by omega) hp hnull
          (q := p ++ [i]) (by simp; omega)
        rw [if_pos rfl] at hstep
        obtain ⟨hwf', hwalk, hsame⟩ :=
          ih (hwf.link (by omega) hp hnull) hstep (by simp; omega)
        refine ⟨hwf', by rw [hsplit]; exact hwalk, ?_⟩
        intro q j hq
        rw [hsame q j hq, lookup_link hwf (by omega) hp hnull hq]
      · have hstep : h.walk null root (p ++ [i]) = some (h.cell t i) := by
          rw [walk_concat_some hp, if_neg hnull]
        rw [hsplit]
        exact ih hwf hstep (by simp; omega)

/-! ## Writing a value -/

/-- A write at the last level changes no walk. -/
theorem walk_store (hwf : WellFormed m d root h) (hlen : p.length = d)
    (hp : h.walk null root p = some t) (v : A) (hq : q.length ≤ d) :
    (h.store t i v).walk null root q = h.walk null root q := by
  induction q using List.reverseRecOn with
  | nil => rfl
  | append_singleton r j ih =>
      simp only [List.length_append, List.length_singleton] at hq
      have hr := ih (by omega)
      cases hold : h.walk null root r with
      | none => rw [walk_concat_none hold, walk_concat_none (hr.trans hold)]
      | some b =>
          have hbt : b ≠ t := by
            rintro rfl
            have := congrArg List.length (hwf.separated r p b (by omega) hlen.le hold hp)
            omega
          rw [walk_concat_some hold, walk_concat_some (hr.trans hold),
            cell_store_ne v (fun hb => hbt hb.1)]

/-- To store an entry keeps the tree. -/
theorem WellFormed.store (hwf : WellFormed m d root h) (hlen : p.length = d)
    (hp : h.walk null root p = some t) (v : A) :
    WellFormed m d root (h.store t i v) := by
  constructor
  · intro q a hq ha
    rw [walk_store hwf hlen hp v hq] at ha
    exact hwf.allocated q a hq ha
  · intro q r a hq hr hqa hra
    rw [walk_store hwf hlen hp v hq] at hqa
    rw [walk_store hwf hlen hp v hr] at hra
    exact hwf.separated q r a hq hr hqa hra

/-- It changes the entry of its own path and index only. -/
theorem lookup_store (hwf : WellFormed m d root h) (hlen : p.length = d)
    (hp : h.walk null root p = some t) (v : A) (hq : q.length = d) :
    (h.store t i v).lookup null root q j =
      if q = p ∧ j = i then v else h.lookup null root q j := by
  unfold lookup
  rw [walk_store hwf hlen hp v hq.le]
  split_ifs with hkey
  · obtain ⟨rfl, rfl⟩ := hkey
    rw [hp]
    exact cell_store_self v
  · cases hold : h.walk null root q with
    | none => rfl
    | some b =>
        apply cell_store_ne
        rintro ⟨rfl, rfl⟩
        exact hkey ⟨hwf.separated q p b hq.le hlen.le hold hp, rfl⟩

end Heap

/-! ## Well-formed tables -/

/-- A table of depth `d`, whose root is the first array to be allocated. -/
structure Table (I : Type) (m : Malloc A null) (d : Nat) where
  heap : Heap A I
  wf : heap.WellFormed m d (m.addr 0)

namespace Table

variable {m} {d : Nat}

omit [DecidableEq I] in
/-- In cleared memory no path leads anywhere. -/
theorem walk_cleared (n : Nat) (t : A) (p : List I) (hp : p ≠ []) :
    Heap.walk null (⟨fun _ _ => null, n⟩ : Heap A I) t p = none := by
  cases p with
  | nil => exact absurd rfl hp
  | cons i p => simp [Heap.walk]

/-- The table of one cleared array. -/
def empty : Table I m d where
  heap := ⟨fun _ _ => null, 1⟩
  wf := by
    have hroot : ∀ (p : List I) a,
        Heap.walk null (⟨fun _ _ => null, 1⟩ : Heap A I) (m.addr 0) p = some a →
        p = [] ∧ a = m.addr 0 := by
      intro p a hp
      by_cases hnil : p = []
      · subst hnil
        exact ⟨rfl, (Option.some.inj hp).symm⟩
      · rw [walk_cleared 1 _ p hnil] at hp
        cases hp
    constructor
    · intro p a _ hp
      exact ⟨0, Nat.one_pos, (hroot p a hp).2⟩
    · intro p q a _ _ hp hq
      rw [(hroot p a hp).1, (hroot q a hq).1]

/-- The value at a key. -/
def get (T : Table I m d) (p : List I) (i : I) : A :=
  T.heap.lookup null (m.addr 0) p i

/-- Allocate the arrays on a path. -/
def touch (T : Table I m d) (p : List I) (hp : p.length ≤ d) : Table I m d where
  heap := (T.heap.walkAlloc m (m.addr 0) p).2
  wf := (Heap.walkAlloc_spec T.wf Heap.walk_nil p (by simpa using hp)).1

/-- Allocate the arrays on a path and change the value at its end. -/
def update (T : Table I m d) (p : List I) (hp : p.length = d) (i : I)
    (f : A → A) : Table I m d where
  heap :=
    let r := T.heap.walkAlloc m (m.addr 0) p
    r.2.store r.1 i (f (r.2.cell r.1 i))
  wf := by
    obtain ⟨hwf, hwalk, -⟩ :=
      Heap.walkAlloc_spec T.wf Heap.walk_nil p (by simpa using hp.le)
    exact hwf.store hp hwalk _

omit [DecidableEq I] in
/-- All entries of the empty table are null. -/
@[simp]
theorem get_empty (p : List I) (i : I) : (empty : Table I m d).get p i = null := by
  unfold get Heap.lookup
  by_cases hp : p = []
  · subst hp
    rfl
  · rw [empty, walk_cleared 1 _ p hp]

/-- To allocate the arrays of a path changes no entry. -/
@[simp]
theorem get_touch (T : Table I m d) (p : List I) (hp : p.length ≤ d) {q : List I}
    (hq : q.length = d) (j : I) : (T.touch p hp).get q j = T.get q j :=
  (Heap.walkAlloc_spec T.wf Heap.walk_nil p (by simpa using hp)).2.2 q j hq

/-- An update changes the value at its key only. -/
theorem get_update (T : Table I m d) (p : List I) (hp : p.length = d) (i : I)
    (f : A → A) {q : List I} (hq : q.length = d) (j : I) :
    (T.update p hp i f).get q j =
      if q = p ∧ j = i then f (T.get p i) else T.get q j := by
  obtain ⟨hwf, hwalk, hsame⟩ :=
    Heap.walkAlloc_spec T.wf Heap.walk_nil p (by simpa using hp.le)
  have hcell : (T.heap.walkAlloc m (m.addr 0) p).2.cell
      (T.heap.walkAlloc m (m.addr 0) p).1 i = T.get p i := by
    rw [get, ← hsame p i hp, Heap.lookup]
    rw [List.nil_append] at hwalk
    rw [hwalk]
  unfold get update
  rw [Heap.lookup_store hwf hp hwalk _ hq, hcell, hsame q j hq]
  rfl

end Table
end Radix
