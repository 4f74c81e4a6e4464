import Hdh.Memory.Refinement

/-!
# Growth of an area

`inc_vma_limit` moves the end of an area, takes frames off the free list of RAM and maps
the new pages.  When RAM has too few frames, `alloc_pages_range` gives all of them back
and answers -1; but `addr_t` is unsigned, and the callers ask for a negative number.

Main results:

- Theorem `alloc_all_or_nothing`: all the frames asked for, or none and the list as before.
- Theorem `growth_maps_exactly`: what a growth with enough frames maps.
- Theorem `growth_reported_iff`: a growth without enough frames is reported only when it is
  turned away before it has begun.
-/

namespace Hdh
namespace Memory

open Ownership

variable {m : Radix.Malloc Nat 0} {k k' : Krnl m}

/-! ## Frames -/

/-- `alloc_pages_range` is all-or-nothing: with enough frames it answers 0 and takes the
first ones, in reverse order; otherwise it answers -1, with no frame, and the free list is
the same list again.  Either way the frames taken and those left, in order, are the old
list. -/
theorem alloc_all_or_nothing (mram : Memphy) (n : Nat) :
    ∃ ret frmLst mram', allocPagesRange mram n = (ret, frmLst, mram') ∧
      (n ≤ mram.freeFpList.length → ret = 0 ∧
        frmLst = (mram.freeFpList.take n).reverse ∧
        mram'.freeFpList = mram.freeFpList.drop n) ∧
      (mram.freeFpList.length < n → ret = -1 ∧ frmLst = [] ∧ mram' = mram) ∧
      frmLst.reverse ++ mram'.freeFpList = mram.freeFpList := by
  have heq := allocPagesRange_eq mram n
  rw [Int.toNat_natCast] at heq
  by_cases hfit : n ≤ mram.freeFpList.length
  · rw [if_pos hfit] at heq
    refine ⟨_, _, _, heq, fun _ => ⟨rfl, rfl, rfl⟩, fun hlt => by omega, ?_⟩
    rw [List.reverse_reverse]
    exact List.take_append_drop n mram.freeFpList
  · rw [if_neg hfit] at heq
    exact ⟨_, _, _, heq, fun hle => absurd hle hfit, fun _ => ⟨rfl, rfl, rfl⟩, rfl⟩

/-! ## What a growth maps -/

/-- The pages of an area from `e` on. -/
def pageAt (e i : Nat) : Addr :=
  BitVec.ofNat 64 (e / 4096 + i)

/-- There are no more frames than numbers that fit. -/
theorem length_le_of_fits {frames : List Addr} (hnodup : frames.Nodup)
    (hfits : ∀ fpn ∈ frames, FpnFits fpn) : frames.length ≤ 2 ^ 13 := by
  have hmap : (frames.map BitVec.toNat).Nodup :=
    hnodup.map fun _ _ heq => BitVec.eq_of_toNat_eq heq
  have hsub : frames.map BitVec.toNat ⊆ List.range (2 ^ 13) := by
    intro n hn
    obtain ⟨fpn, hfpn, rfl⟩ := List.mem_map.mp hn
    exact List.mem_range.mpr (hfits fpn hfpn)
  have hle := (List.subperm_of_subset hmap hsub).length_le
  rwa [List.length_map, List.length_range] at hle

theorem newPages_eq {addr : Addr} {n : Nat} (haddr : addr.toNat < 2 ^ 62)
    (haligned : addr.toNat % 4096 = 0) (hn : n ≤ 2 ^ 19) :
    newPages addr n = (List.range n).map (pageAt addr.toNat) := by
  apply List.map_congr_left
  intro i hi
  exact pageAddr_shift haddr haligned (by have := List.mem_range.mp hi; omega)

theorem pageEntry_touch (pgd : PageDir m) (pgn p : Addr) :
    pageEntry (pgd.touch (getPdFromPagenum pgn).path
      (Nat.le_of_eq (PdIndex.length_path _))) p = pageEntry pgd p := by
  rw [pageEntry, Radix.Table.get_touch _ _ _ (PdIndex.length_path _), pageEntry]

/-- The entries of the other pages stay as they are. -/
theorem pageEntry_mapPages (mm : Mm m) (pfs : List (Addr × Addr)) {p : Addr}
    (hp : ∀ pf ∈ pfs, pageKey p ≠ pageKey pf.1) :
    pageEntry (mm.mapPages pfs).pgd p = pageEntry mm.pgd p := by
  induction pfs generalizing mm with
  | nil => rfl
  | cons pf pfs ih =>
      have hrest := ih (mm.mapPage pf.1 pf.2) fun q hq => hp q (List.mem_cons_of_mem _ hq)
      refine hrest.trans ?_
      have hne := hp pf (List.mem_cons_self ..)
      simp only [Mm.mapPage, pteSetFpn]
      rw [pageEntry_setPte, if_neg hne, pageEntry_touch]

/-- A page that has been mapped is present, not swapped out, and in its frame. -/
theorem pteGetEntry_mapPages (mm : Mm m) {pfs : List (Addr × Addr)}
    (hnodup : (pfs.map fun pf => pageKey pf.1).Nodup) {pf : Addr × Addr} (hpf : pf ∈ pfs)
    (hfits : FpnFits pf.2) :
    pagePresent (pteGetEntry (mm.mapPages pfs).pgd pf.1) = true ∧
      pageSwapped (pteGetEntry (mm.mapPages pfs).pgd pf.1) = false ∧
      pagingFpn (pteGetEntry (mm.mapPages pfs).pgd pf.1) = pf.2 := by
  have hview : views (mm.mapPages pfs).pgd (pageKey pf.1) = .resident pf.2 := by
    rw [views_mapPages_field, ← fpnField_of_fits hfits]
    apply assign_of_mem
    · rwa [map_fst_residents, map_fst_fieldPairs]
    · rw [fpnField_of_fits hfits]
      refine List.mem_map.mpr ⟨(pf.1, fpnField pf.2), List.mem_map_of_mem hpf, ?_⟩
      rw [fpnField_of_fits hfits]
  rw [views_pageKey] at hview
  obtain ⟨hpresent, hfpn⟩ := pageView_eq_resident hview
  refine ⟨hpresent, ?_, hfpn⟩
  cases hswapped : pageSwapped (pteGetEntry (mm.mapPages pfs).pgd pf.1) with
  | false => rfl
  | true => simp [pageView, hpresent, hswapped] at hview

/-- What a growth by `n` pages from `e` on has done. -/
structure MapsExactly (k k' : Krnl m) (e n : Nat) : Prop where
  vmEnd : ∃ vma, k'.mm.mmap = [vma] ∧ vma.vmEnd.toNat = e + 4096 * n
  entry : ∀ i < n,
    pagePresent (pteGetEntry k'.mm.pgd (pageAt e i)) = true ∧
      pageSwapped (pteGetEntry k'.mm.pgd (pageAt e i)) = false ∧
      (k.mram.freeFpList.take n)[n - 1 - i]? =
        some (pagingFpn (pteGetEntry k'.mm.pgd (pageAt e i)))
  fifo : k'.mm.fifoPgn = ((List.range n).map (pageAt e)).reverse ++ k.mm.fifoPgn
  free : k'.mram.freeFpList = k.mram.freeFpList.drop n
  other : ∀ pgn, (∀ i < n, pageKey pgn ≠ pageKey (pageAt e i)) →
    pageEntry k'.mm.pgd pgn = pageEntry k.mm.pgd pgn

/-- The pages of a growth with their frames. -/
def growthPairs (frames : List Addr) (e n : Nat) : List (Addr × Addr) :=
  ((List.range n).map (pageAt e)).zip (frames.take n).reverse

theorem framePairs_eq {mram : Memphy} {addr : Addr} {n : Nat} (haddr : addr.toNat < 2 ^ 62)
    (haligned : addr.toNat % 4096 = 0) (hn : n ≤ 2 ^ 19)
    (hfit : n ≤ mram.freeFpList.length) :
    framePairs mram addr n = growthPairs mram.freeFpList addr.toNat n := by
  rw [framePairs, if_pos hfit, newPages_eq haddr haligned hn, growthPairs]

/-- The page `i` gets the frame `n - 1 - i`: the frames are taken from a list on which
they have been put one by one. -/
theorem mem_growthPairs {frames : List Addr} {n i : Nat} (e : Nat) {fpn : Addr}
    (hfit : n ≤ frames.length) (hi : i < n) (hfpn : (frames.take n)[n - 1 - i]? = some fpn) :
    (pageAt e i, fpn) ∈ growthPairs frames e n := by
  apply List.mem_of_getElem? (i := i)
  rw [growthPairs, List.getElem?_zip_eq_some]
  have hlen : (frames.take n).length = n := by
    rw [List.length_take, Nat.min_eq_left hfit]
  constructor
  · simp [hi]
  · rw [List.getElem?_reverse (by omega), hlen, hfpn]

theorem ne_of_size_pos {incSz : Addr} (hsize : 0 < incSz) : incSz ≠ 0 := by
  rintro rfl
  exact BitVec.lt_irrefl _ hsize

/-- The pages of an extension are present, each in its frame. -/
theorem pteGetEntry_extend (pos : Nat) {area : VmArea} {incSz : Addr} {pf : Addr × Addr}
    (hnodup : ((framePairs k.mram area.vmEnd (incCount incSz)).map
      fun pf => pageKey pf.1).Nodup)
    (hpf : pf ∈ framePairs k.mram area.vmEnd (incCount incSz)) (hfits : FpnFits pf.2) :
    pagePresent (pteGetEntry (k.extend pos area incSz).mm.pgd pf.1) = true ∧
      pageSwapped (pteGetEntry (k.extend pos area incSz).mm.pgd pf.1) = false ∧
      pagingFpn (pteGetEntry (k.extend pos area incSz).mm.pgd pf.1) = pf.2 :=
  pteGetEntry_mapPages _ hnodup hpf hfits

/-- What an extension with enough frames does. -/
theorem mapsExactly_extend {vma : VmArea} (hmmap : k.mm.mmap = [vma])
    (haligned : vma.vmEnd.toNat % 4096 = 0) {incSz : Addr}
    (hfree : pageCount incSz ≤ k.mram.freeFpList.length)
    (hfits : ∀ fpn ∈ k.mram.freeFpList, FpnFits fpn) (hcount : pageCount incSz ≤ 2 ^ 13)
    (hend : vma.vmEnd.toNat + 4096 * pageCount incSz ≤ 2 ^ 57) :
    MapsExactly k (k.extend 0 vma incSz) vma.vmEnd.toNat (pageCount incSz) := by
  have haddr : vma.vmEnd.toNat < 2 ^ 62 := by omega
  have hn : pageCount incSz ≤ 2 ^ 19 := by omega
  have hinc : incCount incSz = pageCount incSz := incCount_eq (by omega)
  have hpairs : framePairs k.mram vma.vmEnd (incCount incSz) =
      growthPairs k.mram.freeFpList vma.vmEnd.toNat (pageCount incSz) := by
    rw [hinc, framePairs_eq haddr haligned hn hfree]
  have hfst : (framePairs k.mram vma.vmEnd (incCount incSz)).map Prod.fst =
      (List.range (pageCount incSz)).map (pageAt vma.vmEnd.toNat) := by
    rw [hinc, framePairs_fst _ hfree, newPages_eq haddr haligned hn]
  have hnodup := framePairs_nodup k.mram vma.vmEnd (n := incCount incSz) (by omega)
  obtain ⟨hareas, hfifo, -⟩ := extend_frame k 0 vma incSz
  constructor
  · refine ⟨{ vma with vmEnd := vma.vmEnd + page64AlignSz incSz }, ?_, ?_⟩
    · rw [hareas, hmmap]
      rfl
    · have hsize : incSz.toNat < 2 ^ 63 := by
        unfold pageCount at hcount
        omega
      rw [BitVec.toNat_add, page64AlignSz_toNat hsize]
      omega
  · intro i hi
    have hlt : pageCount incSz - 1 - i <
        (k.mram.freeFpList.take (pageCount incSz)).length := by
      rw [List.length_take]
      omega
    have hget := List.getElem?_eq_getElem hlt
    have hfit := hfits _ (List.mem_of_mem_take (List.mem_of_getElem? hget))
    have hmem := mem_growthPairs vma.vmEnd.toNat hfree hi hget
    rw [← hpairs] at hmem
    obtain ⟨hpresent, hswapped, hfpn⟩ := pteGetEntry_extend 0 hnodup hmem hfit
    exact ⟨hpresent, hswapped, hget.trans (congrArg some hfpn.symm)⟩
  · rw [hfifo, hfst]
  · rw [Krnl.extend, hinc, takeFrames, if_pos hfree]
  · intro pgn hother
    apply pageEntry_mapPages
    intro pf hpf
    have hpage := List.mem_map_of_mem (f := Prod.fst) hpf
    rw [hfst] at hpage
    obtain ⟨i, hi, heq⟩ := List.mem_map.mp hpage
    rw [← heq]
    exact hother i (List.mem_range.mp hi)

/-- A successful growth maps exactly the new pages: they follow the old end of the area and
get the first frames of the free list, the last page the first frame. -/
theorem growth_maps_exactly {vma : VmArea} (hmmap : k.mm.mmap = [vma])
    (hid : 0 ≤ (vma.vmId.setWidth 32).toInt) (haligned : vma.vmEnd.toNat % 4096 = 0)
    {incSz : Addr} (hsize : 0 < incSz)
    (hfree : pageCount incSz ≤ k.mram.freeFpList.length)
    (hnodup : k.mram.freeFpList.Nodup) (hfits : ∀ fpn ∈ k.mram.freeFpList, FpnFits fpn)
    (hend : vma.vmEnd.toNat + 4096 * pageCount incSz ≤ 2 ^ 57) :
    ∃ k', incVmaLimit k 0 incSz = some (0, k') ∧
      MapsExactly k k' vma.vmEnd.toNat (pageCount incSz) := by
  have hlen := length_le_of_fits hnodup hfits
  have hne := ne_of_size_pos hsize
  have hpos : getVmaByNum k.mm.mmap 0 = some (some 0) := by
    rw [hmmap, getVmaByNum, getVmaLoop, if_neg (Int.not_lt.mpr hid)]
    · rfl
    · exact List.cons_ne_nil _ _
  have harea : k.mm.mmap[0]? = some vma := by
    rw [hmmap]
    rfl
  -- the area does not overlap the range behind its own end
  have hvalid : ¬ validateOverlapVmArea k.mm.mmap 0 vma.vmEnd
      (vma.vmEnd + page64AlignSz incSz) < 0 := by
    have hnot : ¬ vma.vmEnd < vma.vmEnd := BitVec.lt_irrefl _
    rw [hmmap]
    simp [validateOverlapVmArea, overlap, hnot]
  exact ⟨_, incVmaLimit_extend hne hpos harea hvalid,
    mapsExactly_extend hmmap haligned hfree hfits (by omega) hend⟩

/-- A growth by three pages, on a RAM of eight frames. -/
theorem growth_maps_exactly_three :
    ∃ k', incVmaLimit (smallBoot.krnl : Krnl countingMalloc) 0 8193 = some (0, k') ∧
      MapsExactly smallBoot.krnl k' 0 3 := by
  have hall : (smallBoot.krnl : Krnl countingMalloc).mram.freeFpList.all
      (fun fpn => decide (FpnFits fpn)) = true := by decide
  have hfits : ∀ fpn ∈ (smallBoot.krnl : Krnl countingMalloc).mram.freeFpList,
      FpnFits fpn := fun fpn hfpn => of_decide_eq_true (List.all_eq_true.mp hall fpn hfpn)
  have hend : (0 : Addr).toNat + 4096 * pageCount 8193 ≤ 2 ^ 57 := by decide +kernel
  exact growth_maps_exactly (oneArea_boot smallBoot).mmap (by decide) (by decide) (by decide)
    (by decide) (by decide) hfits hend

/-! ## Growth without enough frames -/

/-- Everything that `inc_vma_limit` can do with an increment. -/
theorem incVmaLimit_cases {vmaid ret : Int} {incSz : Addr} (hne : incSz ≠ 0)
    (h : incVmaLimit k vmaid incSz = some (ret, k')) :
    (ret = -1 ∧ k' = k ∧ TurnedAway k vmaid incSz) ∨
      ∃ pos area, getVmaByNum k.mm.mmap vmaid = some (some pos) ∧
        k.mm.mmap[pos]? = some area ∧ ret = 0 ∧ k' = k.extend pos area incSz := by
  by_cases haway : TurnedAway k vmaid incSz
  · rw [incVmaLimit_turnedAway haway] at h
    cases h
    exact Or.inl ⟨rfl, rfl, haway⟩
  · right
    cases hpos : getVmaByNum k.mm.mmap vmaid with
    | none =>
        simp only [incVmaLimit, if_neg hne, hpos] at h
        cases h
    | some found =>
        cases found with
        | none => exact absurd (Or.inl hpos) haway
        | some pos =>
            cases harea : k.mm.mmap[pos]? with
            | none =>
                simp only [incVmaLimit, if_neg hne, hpos, harea] at h
                cases h
            | some area =>
                have hvalid : ¬ validateOverlapVmArea k.mm.mmap vmaid area.vmEnd
                    (area.vmEnd + page64AlignSz incSz) < 0 := fun hover =>
                  haway (Or.inr ⟨pos, area, hpos, harea, hover⟩)
                rw [incVmaLimit_extend hne hpos harea hvalid] at h
                cases h
                exact ⟨pos, area, rfl, harea, rfl, rfl⟩

/-- The failure of a growth is reported, and the ends of the areas, the page table, the
FIFO list and the free list of RAM are as before. -/
def Reported (k : Krnl m) (vmaid : Int) (incSz : Addr) : Prop :=
  ∃ k', incVmaLimit k vmaid incSz = some (-1, k') ∧
    k'.mm.mmap.map VmArea.vmEnd = k.mm.mmap.map VmArea.vmEnd ∧
    k'.mm.pgd = k.mm.pgd ∧ k'.mm.fifoPgn = k.mm.fifoPgn ∧
    k'.mram.freeFpList = k.mram.freeFpList

/-- Without enough frames, an extension enlists fewer pages than it is asked for: none, or
as many as remain of their number in an `int`. -/
theorem length_fifoPgn_extend {incSz : Addr} (pos : Nat) (area : VmArea)
    (hshort : k.mram.freeFpList.length < pageCount incSz) :
    (k.extend pos area incSz).mm.fifoPgn.length <
      k.mm.fifoPgn.length + pageCount incSz := by
  have hpairs : (framePairs k.mram area.vmEnd (incCount incSz)).length <
      pageCount incSz := by
    unfold framePairs
    split_ifs with hfit
    · rw [List.length_zip, List.length_reverse, List.length_take]
      omega
    · rw [List.length_nil]
      omega
  rw [(extend_frame k pos area incSz).2.1, List.length_append, List.length_reverse,
    List.length_map]
  omega

/-- A growth for which RAM has too few frames is reported exactly when it is turned away
before it has begun: there is no area, or the range behind the area overlaps another one.
When it answers 0, it has enlisted fewer pages than it was asked for. -/
theorem growth_reported_iff (k : Krnl m) (vmaid : Int) {incSz : Addr} (hsize : 0 < incSz)
    (hshort : k.mram.freeFpList.length < pageCount incSz) :
    (Reported k vmaid incSz ↔ TurnedAway k vmaid incSz) ∧
      ∀ k', incVmaLimit k vmaid incSz = some (0, k') →
        k'.mm.fifoPgn.length < k.mm.fifoPgn.length + pageCount incSz := by
  have hne := ne_of_size_pos hsize
  constructor
  · constructor
    · rintro ⟨k', hcall, -⟩
      rcases incVmaLimit_cases hne hcall with ⟨-, -, haway⟩ | ⟨pos, area, -, -, hret, -⟩
      · exact haway
      · cases hret
    · intro haway
      exact ⟨k, incVmaLimit_turnedAway haway, rfl, rfl, rfl, rfl⟩
  · intro k' hcall
    rcases incVmaLimit_cases hne hcall with ⟨hret, -⟩ | ⟨pos, area, -, -, -, rfl⟩
    · cases hret
    · exact length_fifoPgn_extend pos area hshort

/-- Nine pages, on a RAM of eight frames. -/
theorem growth_reported_iff_nine :
    (Reported (smallBoot.krnl : Krnl countingMalloc) 0 36864 ↔
        TurnedAway (smallBoot.krnl : Krnl countingMalloc) 0 36864) ∧
      ∀ k', incVmaLimit (smallBoot.krnl : Krnl countingMalloc) 0 36864 = some (0, k') →
        k'.mm.fifoPgn.length < 0 + 9 :=
  growth_reported_iff smallBoot.krnl 0 (by decide) (by decide)

/-- The growth by nine pages answers 0. -/
theorem not_growth_reported :
    ¬ ∀ (k : Krnl countingMalloc) (vmaid : Int) (incSz : Addr), 0 < incSz →
      k.mram.freeFpList.length < pageCount incSz → Reported k vmaid incSz := by
  intro hclaim
  obtain ⟨k', hcall, -⟩ := hclaim smallBoot.krnl 0 36864 (by decide) (by decide)
  rw [(oneArea_boot smallBoot).extends (by decide)] at hcall
  cases hcall

end Memory
end Hdh
