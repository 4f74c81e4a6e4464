import Hdh.Memory.Pte
import Mathlib.Data.List.Basic
import Mathlib.Logic.Function.Basic

/-!
# Regions and the free region list

A region is a half-open interval of virtual addresses.  The region table
`symrgtbl` maps the identifiers of a program to regions, and `vm_freerg_list`
holds the regions that have been freed.  `get_free_vmrg_area` takes the first
free region that fits and leaves the rest of it on the list.

The nodes of the linked list are the elements of a list here: the removal of a
node, which the source makes by cloning its successor into it, leaves the list
without that element, and the last node, which has no successor, stays as an
empty region.

Main results:

- Theorem `fitLoop_eq_some`: what the search takes off the list.
- Theorems `RegionsOk.hit`, `RegionsOk.grow` and `RegionsOk.free`: handing out a
  free region, handing out new space and freeing a region keep all regions
  disjoint and below `sbrk`.
-/

namespace Hdh
namespace Memory

/-- `struct vm_rg_struct`. -/
structure VmRg where
  rgStart : Addr
  rgEnd : Addr
deriving DecidableEq

/-- `PAGING_MAX_SYMTBL_SZ`. -/
def maxSymtblSz : Nat := 30

instance : NeZero maxSymtblSz := ⟨by decide⟩

/-- `symrgtbl`. -/
abbrev SymRgTbl := Fin maxSymtblSz → VmRg

/-- The loop of `get_free_vmrg_area`: the region handed out and the list that is
left; `none` when no region has enough space. -/
def fitLoop (size : Addr) : List VmRg → Option (VmRg × List VmRg)
  | [] => none
  | rgit :: rest =>
      if rgit.rgStart + size ≤ rgit.rgEnd then
        let newrg : VmRg := ⟨rgit.rgStart, rgit.rgStart + size⟩
        if rgit.rgStart + size < rgit.rgEnd then
          some (newrg, ⟨rgit.rgStart + size, rgit.rgEnd⟩ :: rest)
        else
          match rest with
          | nextrg :: rest => some (newrg, nextrg :: rest)
          | [] => some (newrg, [⟨rgit.rgEnd, rgit.rgEnd⟩])
      else (fitLoop size rest).map fun r => (r.1, rgit :: r.2)

/-- `get_free_vmrg_area` on the free list of the area; the answer -1 is `none`. -/
def getFreeVmrgArea (freerg : List VmRg) (size : BitVec 32) :
    Option VmRg × List VmRg :=
  match freerg with
  | [] => (none, [])
  | _ =>
      match fitLoop (size.signExtend 64) freerg with
      | none => (none, freerg)
      | some (newrg, freerg') =>
          if newrg.rgStart = -1 then (none, freerg') else (some newrg, freerg')

/-- `enlist_vm_freerg_list`. -/
def enlistVmFreergList (freerg : List VmRg) (rgElmt : VmRg) : Int × List VmRg :=
  if rgElmt.rgEnd ≤ rgElmt.rgStart then (-1, freerg) else (0, rgElmt :: freerg)

/-! ## Disjoint regions -/

namespace VmRg

/-- The region has no address. -/
def Empty (r : VmRg) : Prop := r.rgEnd ≤ r.rgStart

/-- Two regions have no address in common. -/
def Apart (r s : VmRg) : Prop :=
  r.Empty ∨ s.Empty ∨ r.rgEnd ≤ s.rgStart ∨ s.rgEnd ≤ r.rgStart

/-- The bounds of a region are in order and do not exceed `sbrk`. -/
def Below (sbrk : Addr) (r : VmRg) : Prop :=
  r.rgStart ≤ r.rgEnd ∧ r.rgEnd ≤ sbrk

instance (r : VmRg) : Decidable r.Empty :=
  inferInstanceAs (Decidable (_ ≤ _))

instance (r s : VmRg) : Decidable (r.Apart s) :=
  inferInstanceAs (Decidable (_ ∨ _ ∨ _ ∨ _))

theorem Apart.symm {r s : VmRg} (h : r.Apart s) : s.Apart r := by
  rcases h with h | h | h | h
  · exact Or.inr (Or.inl h)
  · exact Or.inl h
  · exact Or.inr (Or.inr (Or.inr h))
  · exact Or.inr (Or.inr (Or.inl h))

/-- A part of a region is apart from what the region is apart from. -/
theorem Apart.mono {r r' s : VmRg} (h : r.Apart s) (hlo : r.rgStart ≤ r'.rgStart)
    (hhi : r'.rgEnd ≤ r.rgEnd) : r'.Apart s := by
  unfold Apart Empty at h ⊢
  bv_omega

theorem Below.mono {sbrk sbrk' : Addr} {r : VmRg} (h : r.Below sbrk)
    (hle : sbrk ≤ sbrk') : r.Below sbrk' := by
  unfold Below at h ⊢
  bv_omega

end VmRg

/-! ## What the search takes off the list -/

/-- What is left of a region that has been chosen, with `post` behind it on the list:
nothing, or an empty region at the end of the list, when it fits exactly. -/
def leftOver (size : Addr) (rg : VmRg) (post : List VmRg) : List VmRg :=
  if rg.rgStart + size < rg.rgEnd then [⟨rg.rgStart + size, rg.rgEnd⟩]
  else if post.isEmpty then [⟨rg.rgEnd, rg.rgEnd⟩] else []

/-- The search takes the first `size` bytes of the first region with enough space, and
leaves the rest of that region in its place. -/
theorem fitLoop_split {size : Addr} {l l' : List VmRg} {newrg : VmRg}
    (h : fitLoop size l = some (newrg, l')) :
    ∃ pre rg post, l = pre ++ rg :: post ∧ (∀ r ∈ pre, ¬ r.rgStart + size ≤ r.rgEnd) ∧
      rg.rgStart + size ≤ rg.rgEnd ∧ newrg = ⟨rg.rgStart, rg.rgStart + size⟩ ∧
      l' = pre ++ leftOver size rg post ++ post := by
  induction l generalizing newrg l' with
  | nil => cases h
  | cons rgit rest ih =>
      simp only [fitLoop] at h
      split_ifs at h with hfit hmore
      · -- space is left
        cases h
        exact ⟨[], rgit, rest, rfl, by simp, hfit, rfl, by simp [leftOver, hmore]⟩
      · split at h
        · cases h
          exact ⟨[], rgit, _, rfl, by simp, hfit, rfl, by simp [leftOver, hmore]⟩
        · cases h
          exact ⟨[], rgit, [], rfl, by simp, hfit, rfl, by simp [leftOver, hmore]⟩
      · obtain ⟨⟨newrg', rest'⟩, hrest, heq⟩ := Option.map_eq_some_iff.mp h
        cases heq
        obtain ⟨pre, rg, post, rfl, hpre, hfit', hnew, rfl⟩ := ih hrest
        refine ⟨rgit :: pre, rg, post, rfl, ?_, hfit', hnew, rfl⟩
        intro r hr
        rcases List.mem_cons.mp hr with rfl | hr
        · exact hfit
        · exact hpre r hr

/-- What is left is at most one part of the region. -/
theorem leftOver_spec {size : Addr} {rg : VmRg} (hfit : rg.rgStart + size ≤ rg.rgEnd)
    (post : List VmRg) :
    (leftOver size rg post).length ≤ 1 ∧
      ∀ r ∈ leftOver size rg post, rg.rgStart + size ≤ r.rgStart ∧ r.rgEnd = rg.rgEnd ∧
        r.rgStart ≤ r.rgEnd := by
  unfold leftOver
  split_ifs with hmore hlast
  · refine ⟨Nat.le_refl _, fun r hr => ?_⟩
    rw [List.mem_singleton.mp hr]
    exact ⟨BitVec.le_refl _, rfl, hfit⟩
  · refine ⟨Nat.le_refl _, fun r hr => ?_⟩
    rw [List.mem_singleton.mp hr]
    exact ⟨hfit, rfl, BitVec.le_refl _⟩
  · exact ⟨Nat.zero_le _, by simp⟩

theorem leftOver_append_ne_nil (size : Addr) (rg : VmRg) (post : List VmRg) :
    leftOver size rg post ++ post ≠ [] := by
  unfold leftOver
  cases post with
  | nil => split_ifs <;> simp_all
  | cons r post => simp

/-- The same without the order of the regions. -/
theorem fitLoop_eq_some {size : Addr} {l l' : List VmRg} {newrg : VmRg}
    (h : fitLoop size l = some (newrg, l')) :
    ∃ pre rg post left, l = pre ++ rg :: post ∧ l' = pre ++ left ++ post ∧
      rg.rgStart + size ≤ rg.rgEnd ∧ newrg = ⟨rg.rgStart, rg.rgStart + size⟩ ∧
      left.length ≤ 1 ∧ (∀ r ∈ left, rg.rgStart + size ≤ r.rgStart ∧
        r.rgEnd = rg.rgEnd ∧ r.rgStart ≤ r.rgEnd) ∧ l' ≠ [] := by
  obtain ⟨pre, rg, post, hl, -, hfit, hnew, hl'⟩ := fitLoop_split h
  obtain ⟨hlen, hleft⟩ := leftOver_spec hfit post
  refine ⟨pre, rg, post, leftOver size rg post, hl, hl', hfit, hnew, hlen, hleft, ?_⟩
  rw [hl', List.append_assoc]
  exact List.append_ne_nil_of_right_ne_nil pre (leftOver_append_ne_nil size rg post)

/-- The search does not go past a first region that fits. -/
theorem fitLoop_isSome {size : Addr} {rg : VmRg} (rest : List VmRg)
    (hfit : rg.rgStart + size ≤ rg.rgEnd) : (fitLoop size (rg :: rest)).isSome := by
  simp only [fitLoop, if_pos hfit]
  split_ifs
  · rfl
  · cases rest <;> rfl

/-- The search fails when no region has enough space. -/
theorem fitLoop_eq_none_iff {size : Addr} {l : List VmRg} :
    fitLoop size l = none ↔ ∀ r ∈ l, ¬ r.rgStart + size ≤ r.rgEnd := by
  induction l with
  | nil => simp [fitLoop]
  | cons rgit rest ih =>
      by_cases hfit : rgit.rgStart + size ≤ rgit.rgEnd
      · have hsome := Option.isSome_iff_ne_none.mp (fitLoop_isSome rest hfit)
        exact iff_of_false hsome fun hnone => hnone rgit (List.mem_cons_self ..) hfit
      · rw [fitLoop, if_neg hfit, Option.map_eq_none_iff, ih, List.forall_mem_cons]
        exact ⟨fun hrest => ⟨hfit, hrest⟩, fun hall => hall.2⟩

/-- A successful answer comes from the loop. -/
theorem getFreeVmrgArea_eq_some {l l' : List VmRg} {size : BitVec 32} {newrg : VmRg}
    (h : getFreeVmrgArea l size = (some newrg, l')) :
    fitLoop (size.signExtend 64) l = some (newrg, l') := by
  unfold getFreeVmrgArea at h
  split at h
  · cases h
  · split at h
    · cases h
    · rename_i hfit
      split_ifs at h <;> cases h
      exact hfit

/-- An answer of -1 leaves the list alone, when no region starts at the last
address. -/
theorem getFreeVmrgArea_eq_none {l l' : List VmRg} {size : BitVec 32}
    (h : getFreeVmrgArea l size = (none, l')) (hstart : ∀ r ∈ l, r.rgStart ≠ -1) :
    l' = l ∧ fitLoop (size.signExtend 64) l = none := by
  unfold getFreeVmrgArea at h
  split at h
  · cases h
    exact ⟨rfl, rfl⟩
  · split at h
    · rename_i hfit
      cases h
      exact ⟨rfl, hfit⟩
    · rename_i newrg l'' hfit
      split_ifs at h with hlast <;> cases h
      obtain ⟨pre, rg, post, left, rfl, -, -, rfl, -⟩ := fitLoop_eq_some hfit
      exact absurd hlast (hstart rg (by simp))

/-! ## The invariant of the allocator -/

/-- All regions are below `sbrk`, and no two of them have an address in common. -/
structure RegionsOk (sym : SymRgTbl) (freerg : List VmRg) (sbrk : Addr) : Prop where
  sym_below : ∀ i, (sym i).Below sbrk
  free_below : ∀ r ∈ freerg, r.Below sbrk
  sym_apart : ∀ i j, i ≠ j → (sym i).Apart (sym j)
  free_apart : freerg.Pairwise VmRg.Apart
  cross : ∀ i, ∀ r ∈ freerg, (sym i).Apart r

theorem regionsOk_init : RegionsOk (fun _ => ⟨0, 0⟩) [⟨0, 0⟩] 0 := by
  constructor <;> simp [VmRg.Below, VmRg.Apart, VmRg.Empty]

variable {sym : SymRgTbl} {freerg freerg' : List VmRg} {sbrk : Addr}

/-- Elements of a list are replaced by elements that are in relation to what
they were in relation to. -/
theorem pairwise_replace {α : Type} {R : α → α → Prop} {pre post left : List α} {r : α}
    (hsymm : ∀ x y, R x y → R y x) (h : (pre ++ r :: post).Pairwise R)
    (hleft : left.Pairwise R) (hsub : ∀ x ∈ left, ∀ y, R r y → R x y) :
    (pre ++ left ++ post).Pairwise R := by
  rw [List.pairwise_append, List.pairwise_cons] at h
  obtain ⟨hpre, ⟨hr, hpost⟩, hcross⟩ := h
  rw [List.append_assoc, List.pairwise_append, List.pairwise_append]
  refine ⟨hpre, ⟨hleft, hpost, ?_⟩, ?_⟩
  · intro x hx y hy
    exact hsub x hx y (hr y hy)
  · intro x hx y hy
    rcases List.mem_append.mp hy with hy | hy
    · exact hsymm _ _ (hsub y hy x (hsymm _ _ (hcross x hx r (List.mem_cons_self ..))))
    · exact hcross x hx y (List.mem_cons_of_mem r hy)

/-- A region of the table is replaced by one that is apart from everything. -/
theorem RegionsOk.set (h : RegionsOk sym freerg sbrk) (i : Fin maxSymtblSz) {r : VmRg}
    (hbelow : r.Below sbrk) (hsym : ∀ j, j ≠ i → (sym j).Apart r)
    (hfree : ∀ s ∈ freerg, r.Apart s) :
    RegionsOk (Function.update sym i r) freerg sbrk := by
  refine ⟨?_, h.free_below, ?_, h.free_apart, ?_⟩
  · intro j
    by_cases hji : j = i
    · rw [hji, Function.update_self]
      exact hbelow
    · rw [Function.update_of_ne hji]
      exact h.sym_below j
  · intro j k hjk
    by_cases hji : j = i
    · have hki : k ≠ i := fun hki => hjk (hji.trans hki.symm)
      rw [hji, Function.update_self, Function.update_of_ne hki]
      exact (hsym k hki).symm
    · by_cases hki : k = i
      · rw [hki, Function.update_self, Function.update_of_ne hji]
        exact hsym j hji
      · rw [Function.update_of_ne hji, Function.update_of_ne hki]
        exact h.sym_apart j k hjk
  · intro j s hs
    by_cases hji : j = i
    · rw [hji, Function.update_self]
      exact hfree s hs
    · rw [Function.update_of_ne hji]
      exact h.cross j s hs

/-- A free region is replaced by at most one part of it. -/
theorem RegionsOk.replace {pre post left : List VmRg} {rg : VmRg}
    (h : RegionsOk sym (pre ++ rg :: post) sbrk) (hlen : left.length ≤ 1)
    (hleft : ∀ r ∈ left, rg.rgStart ≤ r.rgStart ∧ r.rgEnd = rg.rgEnd ∧
      r.rgStart ≤ r.rgEnd) : RegionsOk sym (pre ++ left ++ post) sbrk := by
  have hrg : rg.Below sbrk := h.free_below rg (by simp)
  have hpart : ∀ r ∈ left, ∀ s, rg.Apart s → r.Apart s := by
    intro r hr s hs
    obtain ⟨hlo, hhi, -⟩ := hleft r hr
    exact hs.mono hlo (hhi ▸ BitVec.le_refl _)
  refine ⟨h.sym_below, ?_, h.sym_apart, ?_, ?_⟩
  · intro r hr
    simp only [List.mem_append] at hr
    rcases hr with (hr | hr) | hr
    · exact h.free_below r (by simp [hr])
    · obtain ⟨-, hhi, hle⟩ := hleft r hr
      exact ⟨hle, hhi ▸ hrg.2⟩
    · exact h.free_below r (by simp [hr])
  · apply pairwise_replace (fun _ _ hrs => hrs.symm) h.free_apart ?_ hpart
    match left, hlen with
    | [], _ => exact List.Pairwise.nil
    | [r], _ => exact List.pairwise_singleton _ r
  · intro j r hr
    simp only [List.mem_append] at hr
    rcases hr with (hr | hr) | hr
    · exact h.cross j r (by simp [hr])
    · exact (hpart r hr _ (h.cross j rg (by simp)).symm).symm
    · exact h.cross j r (by simp [hr])

/-- A free region is handed out. -/
theorem RegionsOk.hit (h : RegionsOk sym freerg sbrk) (hsbrk : sbrk.toNat < 2 ^ 63)
    {size : BitVec 32} (hsize : size.toNat < 2 ^ 31) {newrg : VmRg}
    (hget : getFreeVmrgArea freerg size = (some newrg, freerg'))
    (i : Fin maxSymtblSz) :
    RegionsOk (Function.update sym i newrg) freerg' sbrk ∧
      (newrg.rgEnd - newrg.rgStart).toNat = size.toNat := by
  obtain ⟨pre, rg, post, left, rfl, rfl, hfit, rfl, hlen, hleft, -⟩ :=
    fitLoop_eq_some (getFreeVmrgArea_eq_some hget)
  have hext := signExtend_of_lt hsize
  have hrg : rg.Below sbrk := h.free_below rg (by simp)
  have hstart : rg.rgStart ≤ rg.rgStart + size.signExtend 64 := by
    unfold VmRg.Below at hrg
    bv_omega
  -- the part handed out lies in the region taken
  have hnew : ∀ s, rg.Apart s →
      VmRg.Apart ⟨rg.rgStart, rg.rgStart + size.signExtend 64⟩ s :=
    fun s hs => hs.mono (BitVec.le_refl _) hfit
  have hmid : RegionsOk sym (pre ++ left ++ post) sbrk := by
    apply h.replace hlen
    intro r hr
    obtain ⟨hlo, hhi, hle⟩ := hleft r hr
    exact ⟨BitVec.le_trans hstart hlo, hhi, hle⟩
  constructor
  · apply hmid.set i
    · exact ⟨hstart, BitVec.le_trans hfit hrg.2⟩
    · intro j _
      exact (hnew _ (h.cross j rg (by simp)).symm).symm
    · have happart := h.free_apart
      rw [List.pairwise_append, List.pairwise_cons] at happart
      obtain ⟨-, ⟨hpost, -⟩, hpre⟩ := happart
      intro s hs
      simp only [List.mem_append] at hs
      rcases hs with (hs | hs) | hs
      · exact hnew s (hpre s hs rg (List.mem_cons_self ..)).symm
      · -- the rest begins where the part handed out ends
        exact Or.inr (Or.inr (Or.inl (hleft s hs).1))
      · exact hnew s (hpost s hs)
  · simp only
    bv_omega

/-- New space above `sbrk` is handed out. -/
theorem RegionsOk.grow (h : RegionsOk sym freerg sbrk) {size : Addr}
    (hsum : sbrk.toNat + size.toNat < 2 ^ 64) (i : Fin maxSymtblSz) :
    RegionsOk (Function.update sym i ⟨sbrk, sbrk + size⟩) freerg (sbrk + size) := by
  have hle : sbrk ≤ sbrk + size := by bv_omega
  have hraise : RegionsOk sym freerg (sbrk + size) :=
    ⟨fun j => (h.sym_below j).mono hle, fun r hr => (h.free_below r hr).mono hle,
      h.sym_apart, h.free_apart, h.cross⟩
  apply hraise.set i
  · exact ⟨hle, BitVec.le_refl _⟩
  · intro j _
    exact Or.inr (Or.inr (Or.inl (h.sym_below j).2))
  · intro s hs
    exact Or.inr (Or.inr (Or.inr (h.free_below s hs).2))

/-- A region of the table is freed. -/
theorem RegionsOk.free (h : RegionsOk sym freerg sbrk) (i : Fin maxSymtblSz) :
    RegionsOk (Function.update sym i ⟨0, 0⟩) (sym i :: freerg) sbrk := by
  have hempty : ∀ s, VmRg.Apart ⟨0, 0⟩ s :=
    fun s => Or.inl (BitVec.le_refl _)
  have hcleared : RegionsOk (Function.update sym i ⟨0, 0⟩) freerg sbrk :=
    h.set i ⟨BitVec.le_refl _, by bv_omega⟩ (fun j _ => (hempty _).symm)
      fun s _ => hempty s
  refine ⟨hcleared.sym_below, ?_, hcleared.sym_apart, ?_, ?_⟩
  · intro r hr
    rcases List.mem_cons.mp hr with rfl | hr
    · exact h.sym_below i
    · exact h.free_below r hr
  · exact List.pairwise_cons.mpr ⟨fun r hr => h.cross i r hr, h.free_apart⟩
  · intro j r hr
    rcases List.mem_cons.mp hr with rfl | hr
    · by_cases hji : j = i
      · rw [hji, Function.update_self]
        exact hempty _
      · rw [Function.update_of_ne hji]
        exact h.sym_apart j i hji
    · exact hcleared.cross j r hr

end Memory
end Hdh
