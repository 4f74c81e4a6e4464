import Mathlib.Data.List.Basic
import Mathlib.Logic.Function.Basic
import Mathlib.Order.Nat

/-!
# Lists in memory

Two ways to keep a list in memory, an array of a fixed length and a chain of nodes, and
what a bounded list with removal by key is.

An array is a vector; an access outside of it is undefined, and the answer is then `none`.
A chain is a sequence of nodes of a heap, each with the address of the next one, up to
NULL.  A chain is determined by its first address, and no node is on it twice: there is
nothing to assume about the addresses.

Main results:

- Theorems `Cells.load_eq` and `Cells.store_eq`: inside of its length, an array behaves
  like a function.
- Theorem `BoundedList.popMin_eq`: how the element that is removed is recognized.
- Theorem `Linked.chain_nodup`: the nodes of a chain have distinct addresses.
- Theorems `Linked.Chain.push`, `Linked.Chain.removeLast` and `Linked.Chain.absorb`: a new
  first node, the removal of the last one, and the removal of the one behind a node that
  takes its place.
- Theorems `Linked.Owned.push`, `Linked.Owned.setValue` and `Linked.Owned.absorb`: the same
  for a chain of all nodes in use, so that no node is lost.
-/

/-! ## Arrays of a fixed length -/

namespace Cells

variable {V : Type*} {n : Nat} {a : Vector V n} {f : Nat → V}

/-- `a[i]`. -/
def load (a : Vector V n) (i : Int) : Option V :=
  if 0 ≤ i then a[i.toNat]? else none

/-- `a[i] = v`. -/
def store (a : Vector V n) (i : Int) (v : V) : Option (Vector V n) :=
  if h : 0 ≤ i ∧ i.toNat < n then some (a.set i.toNat v h.2) else none

/-- The array holds the first values of a function. -/
def Holds (a : Vector V n) (f : Nat → V) : Prop :=
  ∀ i < n, a[i]? = some (f i)

/-- A load inside of the array is possible. -/
theorem load_eq (h : Holds a f) {i : Nat} (hi : i < n) : load a i = some (f i) := by
  rw [load, if_pos (Int.natCast_nonneg i), Int.toNat_natCast]
  exact h i hi

/-- So is a store. -/
theorem store_eq (h : Holds a f) {i : Nat} (hi : i < n) (v : V) :
    ∃ b, store a i v = some b ∧ Holds b (Function.update f i v) := by
  have hin : 0 ≤ (i : Int) ∧ (i : Int).toNat < n := ⟨Int.natCast_nonneg i, by simpa using hi⟩
  refine ⟨a.set i v hi, ?_, ?_⟩
  · rw [store, dif_pos hin]
    rfl
  · intro j hj
    by_cases hij : j = i
    · subst hij
      rw [Function.update_self, Vector.getElem?_set_self]
    · rw [Function.update_of_ne hij, Vector.getElem?_set_ne hi (Ne.symm hij)]
      exact h j hj

end Cells

/-! ## Bounded lists -/

namespace BoundedList

variable {α κ : Type*} [Preorder κ] [DecidableLE κ]

/-- Append when there is room for one more. -/
def push (cap : Nat) (l : List α) (a : α) : List α :=
  if l.length < cap then l ++ [a] else l

/-- The position of the first element whose key is minimal. -/
def firstMin (key : α → κ) (l : List α) : Nat :=
  l.findIdx fun a => l.all fun b => decide (key a ≤ key b)

/-- Take out the first element whose key is minimal. -/
def popMin (key : α → κ) (l : List α) : Option α × List α :=
  (l[firstMin key l]?, l.eraseIdx (firstMin key l))

/-- Take out the first occurrence of an element. -/
def remove [DecidableEq α] (l : List α) (a : α) : Option α × List α :=
  if a ∈ l then (some a, l.erase a) else (none, l)

/-- An element with a minimal key, and with larger keys only before it, is the one that is
taken out. -/
theorem popMin_eq {key : α → κ} {l : List α} {i : Nat} {a : α} (hat : l[i]? = some a)
    (hmin : ∀ b ∈ l, key a ≤ key b)
    (hfirst : ∀ j < i, ∀ b, l[j]? = some b → key a < key b) :
    popMin key l = (some a, l.eraseIdx i) := by
  obtain ⟨hi, hget⟩ := List.getElem?_eq_some_iff.mp hat
  have hidx : firstMin key l = i := by
    refine (List.findIdx_eq hi).mpr ⟨?_, fun j hj => ?_⟩
    · rw [hget, List.all_eq_true]
      exact fun b hb => decide_eq_true (hmin b hb)
    · -- `a` itself shows that the key of an element before it is not minimal
      have hjlt : j < l.length := hj.trans hi
      have hless := hfirst j hj l[j] (List.getElem?_eq_getElem hjlt)
      rw [List.all_eq_false]
      exact ⟨a, List.mem_of_getElem? hat, fun hle => hless.not_ge (of_decide_eq_true hle)⟩
  rw [popMin, hidx, hat]

end BoundedList

/-! ## Chains of nodes -/

namespace Linked

variable {A V : Type*}

/-- A node: its value, and the address of the next node or NULL. -/
structure Node (A V : Type*) where
  value : V
  next : Option A

/-- The nodes that are in use. -/
abbrev Heap (A V : Type*) := A → Option (Node A V)

/-- The nodes from `p` on are those of the list, given by their addresses and values, and
the last of them is followed by `q`. -/
def Segment (h : Heap A V) (q : Option A) : Option A → List (A × V) → Prop
  | p, [] => p = q
  | p, (a, v) :: l => p = some a ∧ ∃ next, h a = some ⟨v, next⟩ ∧ Segment h q next l

/-- A segment that ends with NULL. -/
abbrev Chain (h : Heap A V) (p : Option A) (l : List (A × V)) : Prop :=
  Segment h none p l

variable {h : Heap A V} {p q : Option A} {l l' : List (A × V)} {a : A} {v : V}

/-- No nodes hang on NULL. -/
theorem chain_none : Chain h none l ↔ l = [] := by
  cases l with
  | nil => exact iff_of_true rfl rfl
  | cons av l => exact iff_of_false (fun hl => by cases hl.1) (List.cons_ne_nil _ _)

/-- A segment can be cut in two. -/
theorem segment_append :
    Segment h q p (l ++ l') ↔ ∃ r, Segment h r p l ∧ Segment h q r l' := by
  induction l generalizing p with
  | nil => exact ⟨fun hs => ⟨p, rfl, hs⟩, fun ⟨_, hr, hs⟩ => hr ▸ hs⟩
  | cons av l ih =>
      constructor
      · rintro ⟨hp, next, hnode, hrest⟩
        obtain ⟨r, hl, hl'⟩ := ih.mp hrest
        exact ⟨r, ⟨hp, next, hnode, hl⟩, hl'⟩
      · rintro ⟨r, ⟨hp, next, hnode, hl⟩, hl'⟩
        exact ⟨hp, next, hnode, ih.mpr ⟨r, hl, hl'⟩⟩

/-- A segment with a node on it does not start with NULL. -/
theorem Segment.first (hs : Segment h q p (l ++ [(a, v)])) : ∃ b, p = some b := by
  cases l with
  | nil => exact ⟨a, hs.1⟩
  | cons bw l => exact ⟨bw.1, hs.1⟩

/-- The last node of a chain. -/
theorem Chain.last (hl : Chain h p (l ++ [(a, v)])) : h a = some ⟨v, none⟩ := by
  obtain ⟨r, -, -, next, hnode, hnext⟩ := segment_append.mp hl
  cases (show next = none from hnext)
  exact hnode

/-- A node of a segment holds its value. -/
theorem Segment.node_of_mem (hs : Segment h q p l) {av : A × V} (hav : av ∈ l) :
    ∃ next, h av.1 = some ⟨av.2, next⟩ := by
  induction l generalizing p with
  | nil => cases hav
  | cons bw l ih =>
      obtain ⟨-, next, hnode, hrest⟩ := hs
      rcases List.mem_cons.mp hav with rfl | htail
      · exact ⟨next, hnode⟩
      · exact ih hrest htail

/-- The nodes of a segment are in use. -/
theorem Segment.node_ne_none (hs : Segment h q p l) {av : A × V} (hav : av ∈ l) :
    h av.1 ≠ none := by
  obtain ⟨next, hnode⟩ := hs.node_of_mem hav
  rw [hnode]
  exact Option.some_ne_none _

/-- A node that is not on the list is none of its nodes. -/
theorem ne_of_not_mem (h : a ∉ l.map Prod.fst) : ∀ av ∈ l, av.1 ≠ a := by
  rintro av hav rfl
  exact h (List.mem_map_of_mem hav)

/-- Nodes that are not on a segment do not matter. -/
theorem Segment.frame [DecidableEq A] (hs : Segment h q p l)
    (hout : ∀ av ∈ l, av.1 ≠ a) (nd : Option (Node A V)) :
    Segment (Function.update h a nd) q p l := by
  induction l generalizing p with
  | nil => exact hs
  | cons bw l ih =>
      obtain ⟨hp, next, hnode, hrest⟩ := hs
      refine ⟨hp, next, ?_, ih hrest fun av hav => hout av (List.mem_cons_of_mem _ hav)⟩
      rw [Function.update_of_ne (hout bw (List.mem_cons_self ..)), hnode]

/-- A chain is determined by its first address. -/
theorem chain_unique (hl : Chain h p l) (hl' : Chain h p l') : l = l' := by
  induction l generalizing p l' with
  | nil =>
      cases l' with
      | nil => rfl
      | cons bw l' =>
          have hsome := hl'.1
          rw [show p = none from hl] at hsome
          cases hsome
  | cons av l ih =>
      obtain ⟨a, v⟩ := av
      obtain ⟨hp, next, hnode, hrest⟩ := hl
      cases l' with
      | nil =>
          rw [show p = none from hl'] at hp
          cases hp
      | cons bw l' =>
          obtain ⟨b, w⟩ := bw
          obtain ⟨hp', next', hnode', hrest'⟩ := hl'
          cases hp.symm.trans hp'
          cases hnode.symm.trans hnode'
          rw [ih hrest hrest']

/-- No node is on a chain twice: the chain from there on would be shorter than itself. -/
theorem chain_nodup (hl : Chain h p l) : (l.map Prod.fst).Nodup := by
  induction l generalizing p with
  | nil => exact List.nodup_nil
  | cons av l ih =>
      obtain ⟨a, v⟩ := av
      obtain ⟨hp, next, hnode, hrest⟩ := hl
      rw [List.map_cons, List.nodup_cons]
      refine ⟨fun hmem => ?_, ih hrest⟩
      obtain ⟨⟨b, w⟩, hbw, haddr⟩ := List.mem_map.mp hmem
      obtain ⟨pre, post, rfl⟩ := List.append_of_mem hbw
      obtain ⟨r, -, hr, next', hnode', hpost⟩ := segment_append.mp hrest
      cases haddr
      cases hnode.symm.trans hnode'
      have hshort := chain_unique hrest hpost
      have hlen := congrArg List.length hshort
      rw [List.length_append, List.length_cons] at hlen
      omega

/-! ### Changes of a chain -/

variable [DecidableEq A]

/-- A node that is not in use stays so when another one is freed. -/
theorem update_none_of_none {b : A} (hb : h b = none) : Function.update h a none b = none := by
  by_cases hba : b = a
  · rw [hba, Function.update_self]
  · rw [Function.update_of_ne hba, hb]

/-- A new node in front of a chain. -/
theorem Chain.push (hl : Chain h p l) (hfresh : h a = none) (v : V) :
    Chain (Function.update h a (some ⟨v, p⟩)) (some a) ((a, v) :: l) := by
  refine ⟨rfl, p, Function.update_self .., hl.frame ?_ _⟩
  rintro av hav rfl
  exact hl.node_ne_none hav hfresh

/-- The node before the last one becomes the last one, and the last one is not in use any
more. -/
theorem Chain.removeLast {b : A} {w : V} (hl : Chain h p (l ++ [(b, w), (a, v)])) :
    Chain (Function.update (Function.update h b (some ⟨w, none⟩)) a none) p
      (l ++ [(b, w)]) := by
  have hnodup := chain_nodup hl
  rw [List.map_append, List.nodup_append] at hnodup
  obtain ⟨-, hpair, hout⟩ := hnodup
  have hba : b ≠ a := by simpa using hpair
  obtain ⟨r, hinit, hlast⟩ := segment_append.mp hl
  have houtside : ∀ c ∈ [b, a], ∀ av ∈ l, av.1 ≠ c :=
    fun c hc av hav => hout av.1 (List.mem_map_of_mem hav) c (by simpa using hc)
  refine segment_append.mpr ⟨r, ?_, hlast.1, none, ?_, rfl⟩
  · exact (hinit.frame (houtside b (by simp)) _).frame (houtside a (by simp)) _
  · rw [Function.update_of_ne hba, Function.update_self]

/-- The value of a node is changed. -/
theorem Chain.setValue (hl : Chain h p (l ++ (a, v) :: l')) :
    ∃ next, h a = some ⟨v, next⟩ ∧ (l' = [] → next = none) ∧
      ∀ w, Chain (Function.update h a (some ⟨w, next⟩)) p (l ++ (a, w) :: l') := by
  have hnodup := chain_nodup hl
  rw [List.map_append, List.nodup_append, List.map_cons, List.nodup_cons] at hnodup
  obtain ⟨-, ⟨hpost, -⟩, hpre⟩ := hnodup
  obtain ⟨r, hinit, hr, next, hnode, hrest⟩ := segment_append.mp hl
  refine ⟨next, hnode, ?_, fun w => segment_append.mpr ⟨r, ?_, hr, next, ?_, ?_⟩⟩
  · rintro rfl
    exact hrest
  · exact hinit.frame (fun av hav =>
      hpre av.1 (List.mem_map_of_mem hav) a (List.mem_cons_self ..)) _
  · rw [Function.update_self]
  · exact hrest.frame (ne_of_not_mem hpost) _

/-- A node takes the place of the next one, which is not in use any more. -/
theorem Chain.absorb {b : A} {w : V} (hl : Chain h p (l ++ (a, v) :: (b, w) :: l')) :
    ∃ next, h a = some ⟨v, some b⟩ ∧ h b = some ⟨w, next⟩ ∧
      Chain (Function.update (Function.update h a (some ⟨w, next⟩)) b none) p
        (l ++ (a, w) :: l') := by
  have hnodup := chain_nodup hl
  simp only [List.map_append, List.map_cons, List.nodup_append, List.nodup_cons,
    List.mem_cons, not_or] at hnodup
  obtain ⟨-, ⟨⟨hab, hapost⟩, hbpost, -⟩, hpre⟩ := hnodup
  obtain ⟨r, hinit, hr, next, hnode, rfl, next', hnode', hrest⟩ := segment_append.mp hl
  have hout : ∀ c, c = a ∨ c = b → ∀ av ∈ l, av.1 ≠ c := fun c hc av hav =>
    hpre av.1 (List.mem_map_of_mem hav) c (hc.imp_right Or.inl)
  refine ⟨next', hnode, hnode', segment_append.mpr ⟨r, ?_, hr, next', ?_, ?_⟩⟩
  · exact (hinit.frame (hout a (Or.inl rfl)) _).frame (hout b (Or.inr rfl)) _
  · rw [Function.update_of_ne hab, Function.update_self]
  · exact (hrest.frame (ne_of_not_mem hapost) _).frame (ne_of_not_mem hbpost) _

/-! ### Chains that own the memory -/

/-- The nodes in use are those of the chain. -/
structure Owned (h : Heap A V) (p : Option A) (l : List (A × V)) : Prop where
  chain : Chain h p l
  all : ∀ a, h a ≠ none → a ∈ l.map Prod.fst

omit [DecidableEq A] in
/-- The empty list owns nothing. -/
theorem owned_empty : Owned (fun _ => none : Heap A V) none [] :=
  ⟨rfl, fun _ hne => absurd rfl hne⟩

/-- A new node goes in front of the list. -/
theorem Owned.push (ho : Owned h p l) (hfresh : h a = none) (v : V) :
    Owned (Function.update h a (some ⟨v, p⟩)) (some a) ((a, v) :: l) := by
  refine ⟨ho.chain.push hfresh v, fun b hb => ?_⟩
  by_cases hba : b = a
  · exact hba ▸ List.mem_cons_self ..
  · rw [Function.update_of_ne hba] at hb
    exact List.mem_cons_of_mem _ (ho.all b hb)

/-- A value on the list can be replaced. -/
theorem Owned.setValue (ho : Owned h p (l ++ (a, v) :: l')) :
    ∃ next, h a = some ⟨v, next⟩ ∧ (l' = [] → next = none) ∧
      ∀ w, Owned (Function.update h a (some ⟨w, next⟩)) p (l ++ (a, w) :: l') := by
  obtain ⟨next, hnode, hlast, hchain⟩ := ho.chain.setValue
  refine ⟨next, hnode, hlast, fun w => ⟨hchain w, fun b hb => ?_⟩⟩
  have hmem : b ∈ (l ++ (a, v) :: l').map Prod.fst := by
    refine ho.all b ?_
    by_cases hba : b = a
    · rw [hba, hnode]
      exact Option.some_ne_none _
    · rwa [Function.update_of_ne hba] at hb
  simpa using hmem

/-- A node can take the place of the next one. -/
theorem Owned.absorb {b : A} {w : V} (ho : Owned h p (l ++ (a, v) :: (b, w) :: l')) :
    ∃ next, h a = some ⟨v, some b⟩ ∧ h b = some ⟨w, next⟩ ∧
      Owned (Function.update (Function.update h a (some ⟨w, next⟩)) b none) p
        (l ++ (a, w) :: l') := by
  obtain ⟨next, hnode, hnode', hchain⟩ := ho.chain.absorb
  refine ⟨next, hnode, hnode', hchain, fun c hc => ?_⟩
  have hcb : c ≠ b := by
    rintro rfl
    rw [Function.update_self] at hc
    exact hc rfl
  rw [Function.update_of_ne hcb] at hc
  have hmem : c ∈ (l ++ (a, v) :: (b, w) :: l').map Prod.fst := by
    refine ho.all c ?_
    by_cases hca : c = a
    · rw [hca, hnode]
      exact Option.some_ne_none _
    · rwa [Function.update_of_ne hca] at hc
  simpa [hcb] using hmem

/-- A new node behind the last one. -/
theorem Owned.snoc (ho : Owned h p (l ++ [(a, v)])) {b : A} (hfresh : h b = none) (w : V) :
    Owned (Function.update (Function.update h b (some ⟨w, none⟩)) a (some ⟨v, some b⟩)) p
      ((l ++ [(a, v)]) ++ [(b, w)]) := by
  have hlast := ho.chain.last
  have hba : b ≠ a := by
    rintro rfl
    cases hfresh.symm.trans hlast
  obtain ⟨r, hinit, hr, -⟩ := segment_append.mp ho.chain
  have hnodup := chain_nodup ho.chain
  rw [List.map_append, List.nodup_append] at hnodup
  have houta : ∀ av ∈ l, av.1 ≠ a := fun av hav =>
    hnodup.2.2 av.1 (List.mem_map_of_mem hav) a (by simp)
  have houtb : ∀ av ∈ l, av.1 ≠ b := by
    rintro av hav rfl
    exact ho.chain.node_ne_none (List.mem_append_left _ hav) hfresh
  constructor
  · refine segment_append.mpr ⟨some b, segment_append.mpr
      ⟨r, (hinit.frame houtb _).frame houta _, hr, some b, ?_, rfl⟩, rfl, none, ?_, rfl⟩
    · rw [Function.update_self]
    · rw [Function.update_of_ne hba, Function.update_self]
  · intro c hc
    rw [List.map_append, List.mem_append]
    by_cases hcb : c = b
    · exact Or.inr (by simp [hcb])
    · refine Or.inl (ho.all c ?_)
      by_cases hca : c = a
      · rw [hca, hlast]
        exact Option.some_ne_none _
      · rwa [Function.update_of_ne hca, Function.update_of_ne hcb] at hc

/-! ### Two chains in one memory -/

/-- Two chains, and further nodes on neither of them: no node twice, and together all the
nodes in use. -/
structure Parted (h : Heap A V) (p q : Option A) (l l' rest : List (A × V)) : Prop where
  fst : Chain h p l
  snd : Chain h q l'
  kept : ∀ av ∈ rest, ∃ next, h av.1 = some ⟨av.2, next⟩
  nodup : ((l ++ l' ++ rest).map Prod.fst).Nodup
  all : ∀ a, h a ≠ none → a ∈ (l ++ l' ++ rest).map Prod.fst

variable {rest : List (A × V)}

omit [DecidableEq A] in
/-- A list next to an empty one. -/
theorem Owned.parted (ho : Owned h p l) : Parted h p none l [] [] := by
  refine ⟨ho.chain, rfl, by simp, ?_, ?_⟩
  · simpa using chain_nodup ho.chain
  · simpa using ho.all

omit [DecidableEq A] in
/-- The two lists may change places. -/
theorem Parted.swap (hp : Parted h p q l l' rest) : Parted h q p l' l rest := by
  have hperm : ((l ++ l' ++ rest).map Prod.fst).Perm ((l' ++ l ++ rest).map Prod.fst) :=
    (List.perm_append_comm.append_right rest).map _
  refine ⟨hp.snd, hp.fst, hp.kept, hperm.nodup_iff.mp hp.nodup, fun a ha => ?_⟩
  exact hperm.mem_iff.mp (hp.all a ha)

omit [DecidableEq A] in
/-- All the nodes are in use. -/
theorem Parted.node_ne_none (hp : Parted h p q l l' rest) {av : A × V}
    (hav : av ∈ l ++ l' ++ rest) : h av.1 ≠ none := by
  rw [List.mem_append, List.mem_append] at hav
  rcases hav with (hfst | hsnd) | hrest
  · exact hp.fst.node_ne_none hfst
  · exact hp.snd.node_ne_none hsnd
  · obtain ⟨next, hnode⟩ := hp.kept av hrest
    rw [hnode]
    exact Option.some_ne_none _

omit [DecidableEq A] in
/-- The second chain is forgotten. -/
theorem Parted.forget (hp : Parted h p q l l' rest) : Parted h p none l [] (l' ++ rest) := by
  refine ⟨hp.fst, rfl, ?_, ?_, ?_⟩
  · intro av hav
    rcases List.mem_append.mp hav with hsnd | hrest
    · exact hp.snd.node_of_mem hsnd
    · exact hp.kept av hrest
  · simpa [List.append_assoc] using hp.nodup
  · simpa [List.append_assoc] using hp.all

/-- Nothing but the node `a` changes, which is on no chain. -/
theorem Parted.kept_update (hkept : ∀ av ∈ rest, ∃ next, h av.1 = some ⟨av.2, next⟩)
    (hout : ∀ av ∈ rest, av.1 ≠ a) (nd : Option (Node A V)) :
    ∀ av ∈ rest, ∃ next, Function.update h a nd av.1 = some ⟨av.2, next⟩ := by
  intro av hav
  rw [Function.update_of_ne (hout av hav)]
  exact hkept av hav

/-- A new node in front of the first chain. -/
theorem Parted.push (hp : Parted h p q l l' rest) (hfresh : h a = none) (v : V) :
    Parted (Function.update h a (some ⟨v, p⟩)) (some a) q ((a, v) :: l) l' rest := by
  have hout : ∀ av ∈ l ++ l' ++ rest, av.1 ≠ a := by
    rintro av hav rfl
    exact hp.node_ne_none hav hfresh
  refine ⟨hp.fst.push hfresh v, hp.snd.frame (fun av hav => hout av ?_) _,
    Parted.kept_update hp.kept (fun av hav => hout av ?_) _, ?_, ?_⟩
  · exact List.mem_append_left _ (List.mem_append_right _ hav)
  · exact List.mem_append_right _ hav
  · rw [List.cons_append, List.cons_append, List.map_cons, List.nodup_cons]
    refine ⟨fun hmem => ?_, hp.nodup⟩
    obtain ⟨av, hav, haddr⟩ := List.mem_map.mp hmem
    exact hout av hav haddr
  · intro b hb
    rw [List.cons_append, List.cons_append, List.map_cons, List.mem_cons]
    by_cases hba : b = a
    · exact Or.inl hba
    · rw [Function.update_of_ne hba] at hb
      exact Or.inr (hp.all b hb)

/-- The first node of the first chain is not in use any more. -/
theorem Parted.pop (hp : Parted h p q ((a, v) :: l) l' rest) :
    ∃ next, p = some a ∧ h a = some ⟨v, next⟩ ∧
      Parted (Function.update h a none) next q l l' rest := by
  obtain ⟨haddr, next, hnode, hrest⟩ := hp.fst
  have hnodup := hp.nodup
  rw [List.cons_append, List.cons_append, List.map_cons, List.nodup_cons] at hnodup
  have hout := ne_of_not_mem hnodup.1
  refine ⟨next, haddr, hnode, hrest.frame (fun av hav => hout av ?_) _,
    hp.snd.frame (fun av hav => hout av ?_) _,
    Parted.kept_update hp.kept (fun av hav => hout av ?_) _, hnodup.2, ?_⟩
  · exact List.mem_append_left _ (List.mem_append_left _ hav)
  · exact List.mem_append_left _ (List.mem_append_right _ hav)
  · exact List.mem_append_right _ hav
  · intro b hb
    have hba : b ≠ a := by
      rintro rfl
      rw [Function.update_self] at hb
      exact hb rfl
    rw [Function.update_of_ne hba] at hb
    rcases List.mem_cons.mp (hp.all b hb) with heq | htail
    · exact absurd heq hba
    · exact htail

end Linked
