import Hdh.Memory.Growth
import Mathlib.Order.Interval.Set.LinearOrder

/-!
# Lists of areas

`init_mm` creates one area, and the list is written for more.  The loop of
`get_vma_by_num` stops at the first area whose id is not below the id it looks for, and
reads the id of the next area before it tests the pointer.  `inc_vma_limit` tests the
range behind an area, not the area, and `OVERLAP` takes an empty area inside of a range to
overlap it.

Main results:

- Theorem `getVmaByNum_finds_iff`: when `get_vma_by_num` finds the area or its absence.
- Theorem `incVmaLimit_keeps_apart`: a growth is turned away by another area, or the areas
  still have no address in common.
-/

namespace Hdh
namespace Memory

variable {m : Radix.Malloc Nat 0} {k : Krnl m} {mmap : List VmArea}

/-! ## Search by id -/

/-- The ids go up along the list. -/
def SortedById (mmap : List VmArea) : Prop :=
  mmap.Pairwise fun a b => a.vmId < b.vmId

/-- The loop stops at the first area whose id, as an `int`, is not below `vmaid`. -/
theorem getVmaLoop_eq_findIdx? (vmaid : Int) (mmap : List VmArea) (pos : Nat) :
    getVmaLoop vmaid pos mmap =
      (mmap.findIdx? fun a => decide (vmaid ≤ (a.vmId.setWidth 32).toInt)).map (· + pos) := by
  induction mmap generalizing pos with
  | nil => rfl
  | cons a mmap ih =>
      rw [getVmaLoop, List.findIdx?_cons]
      by_cases hlt : (a.vmId.setWidth 32).toInt < vmaid
      · rw [if_pos hlt, ih, if_neg (by simpa using hlt), Option.map_map]
        congr 1
        funext i
        exact Nat.add_right_comm i pos 1 ▸ rfl
      · rw [if_neg hlt, if_pos (by simpa using hlt)]
        simp

/-- An area of a sorted list is found by its id. -/
theorem getVmaByNum_of_id (hsorted : SortedById mmap) {vmaid : Int} (hint : vmaid < 2 ^ 31)
    {pos : Nat} {area : VmArea} (harea : mmap[pos]? = some area)
    (hid : (area.vmId.toNat : Int) = vmaid) :
    getVmaByNum mmap vmaid = some (some pos) := by
  obtain ⟨hpos, heq⟩ := List.getElem?_eq_some_iff.mp harea
  have hfind : mmap.findIdx? (fun a => decide (vmaid ≤ (a.vmId.setWidth 32).toInt)) =
      some pos := by
    rw [List.findIdx?_eq_some_iff_getElem]
    refine ⟨hpos, ?_, ?_⟩
    · rw [heq, toInt_setWidth_of_lt (by omega), hid]
      simp
    · intro j hj
      -- the areas before it have smaller ids
      have hlt := List.pairwise_iff_getElem.mp hsorted j pos (by omega) hpos hj
      rw [heq, BitVec.lt_def] at hlt
      rw [toInt_setWidth_of_lt (by omega)]
      simp only [decide_eq_true_eq]
      omega
  have hne : mmap ≠ [] := by
    rintro rfl
    cases harea
  rw [getVmaByNum, getVmaLoop_eq_findIdx?, hfind]
  · rfl
  · exact hne

/-- `get_vma_by_num` answers the area with the id `vmaid`, or NULL when there is none; it
does not go through NULL. -/
def FindsArea (mmap : List VmArea) (vmaid : Int) : Prop :=
  (∃ pos area, getVmaByNum mmap vmaid = some (some pos) ∧ mmap[pos]? = some area ∧
      (area.vmId.toNat : Int) = vmaid) ∨
    (getVmaByNum mmap vmaid = some none ∧
      ∀ area ∈ mmap, (area.vmId.toNat : Int) ≠ vmaid)

/-- On a list sorted by id, `get_vma_by_num` finds the area or its absence exactly when the
list is empty or has an area with this id.  On any other list its answer is not NULL. -/
theorem getVmaByNum_finds_iff (hsorted : SortedById mmap) {vmaid : Int}
    (hpos : 0 ≤ vmaid) (hint : vmaid < 2 ^ 31) :
    FindsArea mmap vmaid ↔ mmap = [] ∨ vmaid.toNat ∈ mmap.map fun a => a.vmId.toNat := by
  constructor
  · rintro (⟨pos, area, -, harea, hid⟩ | ⟨hnull, -⟩)
    · right
      refine List.mem_map.mpr ⟨area, List.mem_of_getElem? harea, ?_⟩
      omega
    · left
      by_contra hne
      rw [getVmaByNum] at hnull
      · cases hloop : getVmaLoop vmaid 0 mmap <;> rw [hloop] at hnull <;> cases hnull
      · exact hne
  · rintro (rfl | hmem)
    · exact Or.inr ⟨rfl, by simp⟩
    · obtain ⟨area, harea, hid⟩ := List.mem_map.mp hmem
      obtain ⟨pos, hget⟩ := List.mem_iff_getElem?.mp harea
      have hid' : (area.vmId.toNat : Int) = vmaid := by omega
      exact Or.inl ⟨pos, area, getVmaByNum_of_id hsorted hint hget hid', hget, hid'⟩

/-- The area of `init_mm` is found. -/
theorem getVmaByNum_finds_iff_zero :
    FindsArea (initMm [] : Mm countingMalloc).mmap 0 ↔
      (initMm [] : Mm countingMalloc).mmap = [] ∨
        (0 : Int).toNat ∈ (initMm [] : Mm countingMalloc).mmap.map fun a => a.vmId.toNat :=
  getVmaByNum_finds_iff (List.pairwise_singleton _ _) (by decide) (by decide)

/-- Behind the last id, the loop goes through NULL. -/
theorem getVmaByNum_beyond (hne : mmap ≠ []) {vmaid : Int} (hint : vmaid < 2 ^ 31)
    (hlast : ∀ area ∈ mmap, (area.vmId.toNat : Int) < vmaid) :
    getVmaByNum mmap vmaid = none := by
  have hfind : mmap.findIdx? (fun a => decide (vmaid ≤ (a.vmId.setWidth 32).toInt)) =
      none := by
    rw [List.findIdx?_eq_none_iff]
    intro area harea
    have hlt := hlast area harea
    rw [toInt_setWidth_of_lt (by omega)]
    simpa using hlt
  rw [getVmaByNum, getVmaLoop_eq_findIdx?, hfind]
  · rfl
  · exact hne

/-- A program that asks for the growth of an area behind the last one takes the loop
through NULL. -/
theorem sysMemmapInc_beyond (hne : k.mm.mmap ≠ []) {caller : Caller}
    (hfound : caller.found = true) {a2 a3 : BitVec 64} (hsize : a3.setWidth 32 ≠ 0)
    (hlast : ∀ area ∈ k.mm.mmap, (area.vmId.toNat : Int) < (a2.setWidth 32).toInt) :
    sysMemmapInc k caller a2 a3 = none := by
  have hint : (a2.setWidth 32).toInt < 2 ^ 31 := BitVec.toInt_lt
  have hsize' : (a3.setWidth 32).setWidth 64 ≠ (0 : Addr) := by
    intro hzero
    apply hsize
    have hlow := congrArg (BitVec.setWidth 32) hzero
    rwa [BitVec.setWidth_setWidth_of_le _ (by decide), BitVec.setWidth_eq] at hlow
  rw [sysMemmapInc, if_pos hfound, incVmaLimit, if_neg hsize']
  simp only [getVmaByNum_beyond hne hint hlast, Option.map_none]

/-- No area has the id 1 in the memory that `init_mm` creates, and the call is undefined. -/
theorem not_finds_area :
    ¬ ∀ (mmap : List VmArea) (vmaid : Int), SortedById mmap → 0 ≤ vmaid →
      vmaid < 2 ^ 31 → FindsArea mmap vmaid := by
  intro hclaim
  have hcall : getVmaByNum (initMm [] : Mm countingMalloc).mmap 1 = none :=
    getVmaByNum_beyond (List.cons_ne_nil _ _) (by decide) (by simp)
  rcases hclaim (initMm [] : Mm countingMalloc).mmap 1 (List.pairwise_singleton _ _)
    (by decide) (by decide) with ⟨pos, area, hfound, -⟩ | ⟨hnull, -⟩
  · rw [hcall] at hfound
    cases hfound
  · rw [hcall] at hnull
    cases hnull

/-! ## Growth and the other areas -/

/-- The areas are numbered along the list, from 0 on. -/
def Numbered (mmap : List VmArea) : Prop :=
  ∀ pos (area : VmArea), mmap[pos]? = some area → area.vmId.toNat = pos

/-- No two areas overlap, in the sense of `ov`. -/
def Apart (ov : Addr → Addr → Addr → Addr → Prop) (mmap : List VmArea) : Prop :=
  ∀ (i j : Nat) (a b : VmArea), i ≠ j → mmap[i]? = some a → mmap[j]? = some b →
    ¬ ov a.vmStart a.vmEnd b.vmStart b.vmEnd

/-- `OVERLAP` holds of two ranges. -/
def Overlaps (x1 x2 y1 y2 : Addr) : Prop :=
  overlap x1 x2 y1 y2 = true

/-- Two ranges have an address in common. -/
def ShareAddr (x1 x2 y1 y2 : Addr) : Prop :=
  (Set.Ico x1.toNat x2.toNat ∩ Set.Ico y1.toNat y2.toNat).Nonempty

/-- Two ranges have an address in common, or the second one is empty and lies inside of
the first one. -/
def Meets (x1 x2 y1 y2 : Addr) : Prop :=
  ShareAddr x1 x2 y1 y2 ∨ (y1 = y2 ∧ x1 < y1 ∧ y1 < x2)

theorem overlaps_iff (x1 x2 y1 y2 : Addr) :
    Overlaps x1 x2 y1 y2 ↔ x1.toNat < y2.toNat ∧ y1.toNat < x2.toNat := by
  simp [Overlaps, overlap, BitVec.lt_def]

theorem shareAddr_iff (x1 x2 y1 y2 : Addr) :
    ShareAddr x1 x2 y1 y2 ↔ max x1.toNat y1.toNat < min x2.toNat y2.toNat := by
  rw [ShareAddr, Set.Ico_inter_Ico, Set.nonempty_Ico]

theorem ShareAddr.symm {x1 x2 y1 y2 : Addr} (h : ShareAddr x1 x2 y1 y2) :
    ShareAddr y1 y2 x1 x2 := by
  rw [shareAddr_iff] at h ⊢
  omega

/-- `OVERLAP` of a range that is not empty: an address in common, or an empty range inside. -/
theorem overlaps_iff_meets {x1 x2 y1 y2 : Addr} (hx : x1 < x2) (hy : y1 ≤ y2) :
    Overlaps x1 x2 y1 y2 ↔ Meets x1 x2 y1 y2 := by
  rw [overlaps_iff, Meets, shareAddr_iff, ← BitVec.toNat_inj]
  simp only [BitVec.lt_def, BitVec.le_def] at hx hy ⊢
  omega

/-- What is apart from an area and from the range behind it is apart from both together. -/
theorem not_shareAddr_grown {lo mid hi y1 y2 : Addr} (hmid : lo ≤ mid)
    (hold : ¬ ShareAddr lo mid y1 y2) (hnew : ¬ Overlaps mid hi y1 y2) :
    ¬ ShareAddr lo hi y1 y2 := by
  rw [shareAddr_iff] at hold ⊢
  rw [overlaps_iff] at hnew
  rw [BitVec.le_def] at hmid
  omega

/-- The test of `inc_vma_limit`, on areas that are numbered. -/
theorem validateOverlapVmArea_iff (hnum : Numbered mmap) {pos : Nat} (hint : pos < 2 ^ 31)
    (lo hi : Addr) :
    validateOverlapVmArea mmap pos lo hi < 0 ↔
      ∃ j b, j ≠ pos ∧ mmap[j]? = some b ∧ Overlaps lo hi b.vmStart b.vmEnd := by
  have hid : ∀ {j b}, mmap[j]? = some b →
      ((b.vmId != BitVec.ofInt 64 (pos : Int)) = true ↔ j ≠ pos) := by
    intro j b hb
    rw [bne_iff_ne, ne_eq, ← BitVec.toNat_inj, hnum j b hb, BitVec.ofInt_natCast,
      BitVec.toNat_ofNat, Nat.mod_eq_of_lt (by omega)]
  unfold validateOverlapVmArea
  split_ifs with hany
  · refine iff_of_true (by decide) ?_
    obtain ⟨b, hb, htest⟩ := List.any_eq_true.mp hany
    obtain ⟨j, hj⟩ := List.mem_iff_getElem?.mp hb
    rw [Bool.and_eq_true, hid hj] at htest
    exact ⟨j, b, htest.1, hj, htest.2⟩
  · refine iff_of_false (by decide) ?_
    rintro ⟨j, b, hne, hj, hov⟩
    apply hany
    refine List.any_eq_true.mpr ⟨b, List.mem_of_getElem? hj, ?_⟩
    rw [Bool.and_eq_true, hid hj]
    exact ⟨hne, hov⟩

/-- A request for the growth of one area of a list. -/
structure Growing (ov : Addr → Addr → Addr → Addr → Prop) (k : Krnl m) (pos : Nat)
    (area : VmArea) (incSz : Addr) : Prop where
  numbered : Numbered k.mm.mmap
  ordered : ∀ a ∈ k.mm.mmap, a.vmStart ≤ a.vmEnd
  apart : Apart ov k.mm.mmap
  found : k.mm.mmap[pos]? = some area
  int : pos < 2 ^ 31
  sizePos : 0 < incSz.toNat
  size : incSz.toNat < 2 ^ 32
  fits : area.vmEnd.toNat + incSz.toNat + 4095 < 2 ^ 64

/-- The growth is turned away, with every area as before, because another area meets the
range behind the area, in the sense of `meets`; or it moves the end of the area by the
rounded size, and no two areas overlap in the sense of `ov`. -/
def GrowsApart (meets ov : Addr → Addr → Addr → Addr → Prop) (k : Krnl m) (pos : Nat)
    (area : VmArea) (incSz : Addr) : Prop :=
  ∃ ret k' newEnd, incVmaLimit k pos incSz = some (ret, k') ∧
    newEnd.toNat = area.vmEnd.toNat + (incSz.toNat + 4095) / 4096 * 4096 ∧
    ((ret = -1 ∧ k'.mm.mmap = k.mm.mmap ∧ ∃ j b, j ≠ pos ∧ k.mm.mmap[j]? = some b ∧
        meets area.vmEnd newEnd b.vmStart b.vmEnd) ∨
      (ret = 0 ∧ k'.mm.mmap = k.mm.mmap.modify pos (fun a => { a with vmEnd := newEnd }) ∧
        Apart ov k'.mm.mmap))

section Growing

variable {ov : Addr → Addr → Addr → Addr → Prop} {pos : Nat} {area : VmArea} {incSz : Addr}

theorem Growing.getVmaByNum (h : Growing ov k pos area incSz) :
    getVmaByNum k.mm.mmap pos = some (some pos) := by
  have hsorted : SortedById k.mm.mmap := by
    refine List.pairwise_iff_getElem.mpr fun i j hi hj hlt => ?_
    rw [BitVec.lt_def, h.numbered i _ (List.getElem?_eq_getElem hi),
      h.numbered j _ (List.getElem?_eq_getElem hj)]
    exact hlt
  have hint : (pos : Int) < 2 ^ 31 := by
    have := h.int
    omega
  exact getVmaByNum_of_id hsorted hint h.found
    (congrArg Nat.cast (h.numbered pos area h.found))

theorem Growing.newEnd_toNat (h : Growing ov k pos area incSz) :
    (area.vmEnd + page64AlignSz incSz).toNat =
      area.vmEnd.toNat + (incSz.toNat + 4095) / 4096 * 4096 := by
  have hsize := h.size
  have hfits := h.fits
  rw [BitVec.toNat_add, page64AlignSz_toNat (by omega), pageCount]
  omega

/-- The two outcomes of the growth of a numbered area. -/
theorem Growing.cases (h : Growing ov k pos area incSz) :
    (incVmaLimit k pos incSz = some (-1, k) ∧ ∃ j b, j ≠ pos ∧ k.mm.mmap[j]? = some b ∧
        Overlaps area.vmEnd (area.vmEnd + page64AlignSz incSz) b.vmStart b.vmEnd) ∨
      (incVmaLimit k pos incSz = some (0, k.extend pos area incSz) ∧
        ∀ j b, j ≠ pos → k.mm.mmap[j]? = some b →
          ¬ Overlaps area.vmEnd (area.vmEnd + page64AlignSz incSz) b.vmStart b.vmEnd) := by
  have htest := validateOverlapVmArea_iff h.numbered h.int area.vmEnd
    (area.vmEnd + page64AlignSz incSz)
  by_cases hover : validateOverlapVmArea k.mm.mmap pos area.vmEnd
    (area.vmEnd + page64AlignSz incSz) < 0
  · exact Or.inl ⟨incVmaLimit_turnedAway (Or.inr ⟨pos, area, h.getVmaByNum, h.found, hover⟩),
      htest.mp hover⟩
  · have hne : incSz ≠ 0 := by
      rintro rfl
      exact absurd h.sizePos (by decide)
    refine Or.inr ⟨incVmaLimit_extend hne h.getVmaByNum h.found hover, ?_⟩
    exact fun j b hj hb hov => hover (htest.mpr ⟨j, b, hj, hb, hov⟩)

/-- The areas of an extended list are the old ones, except for the end of one. -/
theorem getElem?_mmap_extend {j : Nat} {b : VmArea} (harea : k.mm.mmap[pos]? = some area)
    (hb : (k.extend pos area incSz).mm.mmap[j]? = some b) :
    (j ≠ pos ∧ k.mm.mmap[j]? = some b) ∨
      (j = pos ∧ b = { area with vmEnd := area.vmEnd + page64AlignSz incSz }) := by
  rw [(extend_frame k pos area incSz).1, List.getElem?_modify] at hb
  obtain ⟨a, ha, rfl⟩ := Option.map_eq_some_iff.mp hb
  by_cases hj : pos = j
  · subst hj
    rw [harea] at ha
    cases ha
    exact Or.inr ⟨rfl, if_pos rfl⟩
  · rw [if_neg hj]
    exact Or.inl ⟨fun heq => hj heq.symm, ha⟩

/-- Areas without a common address stay so when one of them grows into a range that no
other area overlaps. -/
theorem Growing.apart_extend (h : Growing ShareAddr k pos area incSz)
    (hfree : ∀ j b, j ≠ pos → k.mm.mmap[j]? = some b →
      ¬ Overlaps area.vmEnd (area.vmEnd + page64AlignSz incSz) b.vmStart b.vmEnd) :
    Apart ShareAddr (k.extend pos area incSz).mm.mmap := by
  -- the grown area against each of the others
  have hgrown : ∀ j b, j ≠ pos → k.mm.mmap[j]? = some b →
      ¬ ShareAddr area.vmStart (area.vmEnd + page64AlignSz incSz) b.vmStart b.vmEnd :=
    fun j b hj hb => not_shareAddr_grown (h.ordered area (List.mem_of_getElem? h.found))
      (h.apart pos j area b hj.symm h.found hb) (hfree j b hj hb)
  intro i j a b hij ha hb
  rcases getElem?_mmap_extend h.found ha with ⟨hi, ha'⟩ | ⟨rfl, rfl⟩
  · rcases getElem?_mmap_extend h.found hb with ⟨-, hb'⟩ | ⟨rfl, rfl⟩
    · exact h.apart i j a b hij ha' hb'
    · exact fun hshare => hgrown i a hi ha' hshare.symm
  · rcases getElem?_mmap_extend h.found hb with ⟨hj, hb'⟩ | ⟨hj, -⟩
    · exact hgrown j b hj hb'
    · exact absurd hj.symm hij

/-- The growth of an area is turned away because another area has an address in common
with the range behind it, or is empty and lies inside of this range; otherwise only the
end of the area moves, and the areas still have no address in common. -/
theorem incVmaLimit_keeps_apart (h : Growing ShareAddr k pos area incSz) :
    GrowsApart Meets ShareAddr k pos area incSz := by
  rcases h.cases with ⟨hcall, j, b, hj, hb, hov⟩ | ⟨hcall, hfree⟩
  · refine ⟨-1, k, _, hcall, h.newEnd_toNat, Or.inl ⟨rfl, rfl, j, b, hj, hb, ?_⟩⟩
    have hrange : area.vmEnd < area.vmEnd + page64AlignSz incSz := by
      have hsize := h.sizePos
      rw [BitVec.lt_def, h.newEnd_toNat]
      omega
    exact (overlaps_iff_meets hrange (h.ordered b (List.mem_of_getElem? hb))).mp hov
  · exact ⟨0, _, _, hcall, h.newEnd_toNat,
      Or.inr ⟨rfl, (extend_frame k pos area incSz).1, h.apart_extend hfree⟩⟩

end Growing

/-- An area with an empty list of free regions. -/
def bareArea (id : BitVec 64) (lo hi : Addr) : VmArea where
  vmId := id
  vmStart := lo
  vmEnd := hi
  sbrk := 0
  vmFreergList := []

/-- A memory of two areas, the first one of which begins at 0. -/
def twoAreas (e lo hi : Addr) : Krnl countingMalloc where
  mm := { initMm [] with mmap := [bareArea 0 0 e, bareArea 1 lo hi] }
  mram := (smallBoot.krnl : Krnl countingMalloc).mram
  activeMswp := (smallBoot.krnl : Krnl countingMalloc).activeMswp

theorem getElem?_twoAreas {e lo hi : Addr} {i : Nat} {a : VmArea}
    (h : (twoAreas e lo hi).mm.mmap[i]? = some a) :
    (i = 0 ∧ a = bareArea 0 0 e) ∨ (i = 1 ∧ a = bareArea 1 lo hi) := by
  match i with
  | 0 => exact Or.inl ⟨rfl, (Option.some_inj.mp h).symm⟩
  | 1 => exact Or.inr ⟨rfl, (Option.some_inj.mp h).symm⟩
  | _ + 2 => cases h

/-- The first of two areas may be asked to grow by a page. -/
theorem growing_twoAreas {ov : Addr → Addr → Addr → Addr → Prop} {e lo hi : Addr}
    (hordered : lo ≤ hi) (he : e.toNat < 2 ^ 63) (hov : ¬ ov 0 e lo hi)
    (hov' : ¬ ov lo hi 0 e) : Growing ov (twoAreas e lo hi) 0 (bareArea 0 0 e) 4096 where
  numbered := by
    intro i a ha
    rcases getElem?_twoAreas ha with ⟨rfl, rfl⟩ | ⟨rfl, rfl⟩ <;> rfl
  ordered := by
    intro a ha
    obtain ⟨i, hi⟩ := List.mem_iff_getElem?.mp ha
    rcases getElem?_twoAreas hi with ⟨-, rfl⟩ | ⟨-, rfl⟩
    · exact BitVec.le_def.mpr (Nat.zero_le _)
    · exact hordered
  apart := by
    intro i j a b hij ha hb
    rcases getElem?_twoAreas ha with ⟨rfl, rfl⟩ | ⟨rfl, rfl⟩ <;>
      rcases getElem?_twoAreas hb with ⟨rfl, rfl⟩ | ⟨rfl, rfl⟩
    · exact absurd rfl hij
    · exact hov
    · exact hov'
    · exact absurd rfl hij
  found := rfl
  int := by decide
  sizePos := by decide
  size := by decide
  fits := by
    have hsize : (4096 : Addr).toNat = 4096 := rfl
    have hend : (bareArea 0 0 e).vmEnd = e := rfl
    rw [hsize, hend]
    omega

/-- An empty area and one in the next page: the first one grows. -/
theorem incVmaLimit_keeps_apart_two :
    GrowsApart Meets ShareAddr (twoAreas 0 4096 8192) 0 (bareArea 0 0 0) 4096 :=
  incVmaLimit_keeps_apart (growing_twoAreas (by decide) (by decide)
    (by rw [shareAddr_iff]; decide) (by rw [shareAddr_iff]; decide))

/-- An area is turned away by an empty one behind it, with which it has no address in
common; and it grows over an empty one at its end, which `OVERLAP` then takes to overlap
it. -/
theorem not_growsApart :
    (¬ ∀ (k : Krnl countingMalloc) (pos : Nat) (area : VmArea) (incSz : Addr),
        Growing ShareAddr k pos area incSz → GrowsApart ShareAddr ShareAddr k pos area incSz) ∧
      ¬ ∀ (k : Krnl countingMalloc) (pos : Nat) (area : VmArea) (incSz : Addr),
        Growing Overlaps k pos area incSz → GrowsApart Overlaps Overlaps k pos area incSz := by
  constructor
  · intro hclaim
    have hgrow : Growing ShareAddr (twoAreas 0 100 100) 0 (bareArea 0 0 0) 4096 :=
      growing_twoAreas (by decide) (by decide) (by rw [shareAddr_iff]; decide)
        (by rw [shareAddr_iff]; decide)
    obtain ⟨ret, k', newEnd, hcall, -, ⟨-, -, j, b, hj, hb, hshare⟩ | ⟨hret, -⟩⟩ :=
      hclaim _ _ _ _ hgrow
    · rcases getElem?_twoAreas hb with ⟨rfl, -⟩ | ⟨-, rfl⟩
      · exact absurd rfl hj
      · rw [shareAddr_iff] at hshare
        simp only [bareArea] at hshare
        omega
    · rcases hgrow.cases with ⟨hcall', -⟩ | ⟨-, hfree⟩
      · rw [hcall', hret] at hcall
        cases hcall
      · refine hfree 1 (bareArea 1 100 100) (by decide) rfl ?_
        rw [overlaps_iff]
        decide
  · intro hclaim
    have hgrow : Growing Overlaps (twoAreas 4096 4096 4096) 0 (bareArea 0 0 4096) 4096 :=
      growing_twoAreas (by decide) (by decide) (by rw [overlaps_iff]; decide)
        (by rw [overlaps_iff]; decide)
    obtain ⟨ret, k', newEnd, hcall, hend, ⟨-, -, j, b, hj, hb, hover⟩ | ⟨-, hmmap, hapart⟩⟩ :=
      hclaim _ _ _ _ hgrow
    · rcases getElem?_twoAreas hb with ⟨rfl, -⟩ | ⟨-, rfl⟩
      · exact absurd rfl hj
      · rw [overlaps_iff] at hover
        exact absurd hover.1 (by decide)
    · -- the grown area reaches over the empty one at 4096
      rw [hmmap] at hapart
      refine hapart 0 1 _ _ (by decide) rfl rfl ?_
      rw [overlaps_iff, hend]
      exact ⟨by simp [bareArea], by decide⟩

end Memory
end Hdh
