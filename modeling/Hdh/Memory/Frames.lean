import Hdh.Library.Ownership
import Hdh.Library.Runs
import Hdh.Memory.Backing

/-!
# Frames

Every frame of RAM is on the free list or belongs to one page, and every frame of the
swap device is on the free list or recorded for one page that is swapped out.  A page
that an allocation maps must not be present before: `pg_getpage` faults pages of 256
bytes in, whose numbers are those of pages of 4096 bytes that the area has not
reached yet.

Main results:

- Theorems `RamOwned.page` and `RamOwned.grow`: accesses and growth keep the frames
  of RAM owned.
- Theorem `frames_owned`: the invariant, as long as allocations map pages that are not
  present and all frame numbers fit their fields.
-/

namespace Hdh
namespace Memory

open Ownership

variable {m : Radix.Malloc Nat 0} {k k' : Krnl m} {vma : VmArea}

/-! ## What the page table says -/

/-- What the page table says about the page with the given indices. -/
def views (pgd : PageDir m) (key : BitVec 45) : PageView :=
  pageView (pteGetEntry pgd (key.setWidth 64))

/-- The key of a page number of 45 bits is the number. -/
theorem pageKey_setWidth (key : BitVec 45) : pageKey (key.setWidth 64) = key := by
  rw [pageKey, BitVec.setWidth_setWidth_of_le _ (by omega), BitVec.setWidth_eq]

/-- What the table says of a page is what its entry says. -/
theorem views_pageKey (pgd : PageDir m) (pgn : Addr) :
    views pgd (pageKey pgn) = pageView (pteGetEntry pgd pgn) := by
  rw [views, pteGetEntry_congr pgd (pageKey_setWidth (pageKey pgn))]

/-- A page is not present when the table says nothing about it. -/
theorem views_eq_absent_iff (pgd : PageDir m) (pgn : Addr) :
    views pgd (pageKey pgn) = .absent ↔ pagePresent (pteGetEntry pgd pgn) = false := by
  rw [views_pageKey, pageView_eq_absent_iff]

/-- The entry of a resident page names its frame. -/
theorem pagingFpn_of_resident {pgd : PageDir m} {pgn fpn : Addr}
    (h : views pgd (pageKey pgn) = .resident fpn) :
    pagingFpn (pteGetEntry pgd pgn) = fpn := by
  rw [views_pageKey] at h
  exact (pageView_eq_resident h).2

/-- `pte_set_fpn` makes its page resident in the frame that fits the field. -/
theorem views_setFpn_field (pgd : PageDir m) (pgn fpn : Addr) :
    views (pteSetFpn pgd pgn fpn).2 =
      Function.update (views pgd) (pageKey pgn) (.resident (fpnField fpn)) := by
  funext key
  rw [views, pteGetEntry_setFpn, pageKey_setWidth]
  by_cases hkey : key = pageKey pgn
  · rw [if_pos hkey, pageView_setFpn_field, hkey, Function.update_self]
  · rw [if_neg hkey, Function.update_of_ne hkey, views]

/-- A frame number that fits is not changed by that. -/
theorem views_setFpn (pgd : PageDir m) (pgn : Addr) {fpn : Addr} (hfits : FpnFits fpn) :
    views (pteSetFpn pgd pgn fpn).2 =
      Function.update (views pgd) (pageKey pgn) (.resident fpn) := by
  rw [views_setFpn_field, fpnField_of_fits hfits]

/-- `pte_set_swap` makes its page swapped. -/
theorem views_setSwap (pgd : PageDir m) (pgn : Addr) (swptyp : BitVec 32)
    (swpoff : Addr) :
    views (pteSetSwap pgd pgn swptyp swpoff).2 =
      Function.update (views pgd) (pageKey pgn) (.swapped (swapSlot swpoff)) := by
  funext key
  rw [views, pteGetEntry_setSwap, pageKey_setWidth]
  by_cases hkey : key = pageKey pgn
  · rw [if_pos hkey, pageView_setSwap, hkey, Function.update_self]
  · rw [if_neg hkey, Function.update_of_ne hkey, views]

/-- An eviction swaps the victim out, and gives its frame to the page. -/
theorem views_evict (pgd : PageDir m) (vicpgn swpfpn pgn : Addr) {vicfpn : Addr}
    (hfits : FpnFits vicfpn) :
    views (evictPgd pgd vicpgn swpfpn pgn vicfpn) =
      Function.update
        (Function.update (views pgd) (pageKey vicpgn) (.swapped (swapSlot swpfpn)))
        (pageKey pgn) (.resident vicfpn) := by
  rw [evictPgd, views_setFpn _ _ hfits, views_setSwap]

/-- The pages and frames of a growth, as the page table knows them. -/
def residents (pfs : List (Addr × Addr)) : List (BitVec 45 × PageView) :=
  pfs.map fun pf => (pageKey pf.1, .resident pf.2)

/-- The same with the frame numbers as the entries hold them. -/
def fieldPairs (pfs : List (Addr × Addr)) : List (Addr × Addr) :=
  pfs.map fun pf => (pf.1, fpnField pf.2)

/-- Mappings make their pages resident. -/
theorem views_mapPages_field (mm : Mm m) (pfs : List (Addr × Addr)) :
    views (mm.mapPages pfs).pgd =
      assign (residents (fieldPairs pfs)) (views mm.pgd) := by
  induction pfs generalizing mm with
  | nil => rfl
  | cons pf pfs ih =>
      have hmap : views (mm.mapPage pf.1 pf.2).pgd =
          Function.update (views mm.pgd) (pageKey pf.1) (.resident (fpnField pf.2)) := by
        have htouch : views (mm.pgd.touch (getPdFromPagenum pf.1).path
            (Nat.le_of_eq (PdIndex.length_path _))) = views mm.pgd := by
          funext key
          rw [views, views, pteGetEntry, pteGetEntry,
            Radix.Table.get_touch _ _ _ (PdIndex.length_path _)]
        rw [Mm.mapPage, views_setFpn_field, htouch]
      have hrest := ih (mm.mapPage pf.1 pf.2)
      rw [hmap] at hrest
      exact hrest

/-- Frame numbers that fit are stored as they are. -/
theorem fieldPairs_of_fits {pfs : List (Addr × Addr)}
    (hfits : ∀ pf ∈ pfs, FpnFits pf.2) : fieldPairs pfs = pfs := by
  rw [fieldPairs]
  conv_rhs => rw [← List.map_id pfs]
  apply List.map_congr_left
  intro pf hpf
  rw [fpnField_of_fits (hfits pf hpf), id]

/-- The pages are resident in their frames when the numbers fit. -/
theorem views_mapPages (mm : Mm m) (pfs : List (Addr × Addr))
    (hfits : ∀ pf ∈ pfs, FpnFits pf.2) :
    views (mm.mapPages pfs).pgd = assign (residents pfs) (views mm.pgd) := by
  rw [views_mapPages_field, fieldPairs_of_fits hfits]

/-! ## The frames of RAM -/

/-- The frame of a page that is resident. -/
def PageView.frame : PageView → Option Addr
  | .resident fpn => some fpn
  | _ => none

/-- The swap frame of a page that is swapped out. -/
def PageView.slot : PageView → Option Addr
  | .swapped swpoff => some swpoff
  | _ => none

/-- Resident pages have a frame. -/
theorem PageView.frame_eq_some {v : PageView} {fpn : Addr} :
    v.frame = some fpn ↔ v = .resident fpn := by
  cases v <;> simp [frame]

/-- Swapped pages have a swap frame. -/
theorem PageView.slot_eq_some {v : PageView} {swpoff : Addr} :
    v.slot = some swpoff ↔ v = .swapped swpoff := by
  cases v <;> simp [slot]

/-- The frames that a device has. -/
def Memphy.HasFrame (mp : Memphy) (fpn : Addr) : Prop :=
  fpn.toNat < mp.maxsz / pageSz

/-- A device has the frames that end inside of it. -/
theorem Memphy.hasFrame_iff {mp : Memphy} {fpn : Addr} :
    mp.HasFrame fpn ↔ fpn.toNat * 256 + 255 < mp.maxsz := by
  unfold Memphy.HasFrame pageSz
  omega

/-- The frames of a device depend on its size only. -/
theorem Memphy.hasFrame_congr {mp mp' : Memphy} (h : mp'.maxsz = mp.maxsz) :
    mp'.HasFrame = mp.HasFrame := by
  funext fpn
  rw [HasFrame, h, HasFrame]

/-- The frames of RAM are owned, and the pages of the FIFO list are the resident
ones that an eviction may choose. -/
structure RamOwned (k : Krnl m) : Prop where
  frames : Owned k.mram.HasFrame k.mram.freeFpList (PageView.frame ∘ views k.mm.pgd)
  fifo_nodup : (k.mm.fifoPgn.map pageKey).Nodup
  fifo_resident : ∀ p ∈ k.mm.fifoPgn, ∃ fpn, views k.mm.pgd (pageKey p) = .resident fpn

/-- The frames of the swap device are owned. -/
def SwapOwned (k : Krnl m) : Prop :=
  Owned k.activeMswp.HasFrame k.activeMswp.freeFpList
    (PageView.slot ∘ views k.mm.pgd)

/-- A page that is not present is not on the list. -/
theorem RamOwned.not_mem_fifo (h : RamOwned k) {p : Addr}
    (habsent : views k.mm.pgd (pageKey p) = .absent) :
    pageKey p ∉ k.mm.fifoPgn.map pageKey := by
  intro hmem
  obtain ⟨q, hq, hkey⟩ := List.mem_map.mp hmem
  obtain ⟨fpn, hres⟩ := h.fifo_resident q hq
  rw [hkey, habsent] at hres
  cases hres

/-- The victim of an eviction is resident, and it is not the page that is faulted in. -/
theorem RamOwned.victim (h : RamOwned k) {pgn vicpgn : Addr} {fifoPgn : List Addr}
    (habsent : views k.mm.pgd (pageKey pgn) = .absent)
    (hfifo : k.mm.fifoPgn = fifoPgn ++ [vicpgn]) :
    ∃ vicfpn, views k.mm.pgd (pageKey vicpgn) = .resident vicfpn ∧
      pagingFpn (pteGetEntry k.mm.pgd vicpgn) = vicfpn ∧ FpnFits vicfpn ∧
      pageKey pgn ≠ pageKey vicpgn := by
  obtain ⟨vicfpn, hvic⟩ := h.fifo_resident vicpgn (by rw [hfifo]; simp)
  have hfpn := pagingFpn_of_resident hvic
  refine ⟨vicfpn, hvic, hfpn, hfpn ▸ pagingFpn_fits _, ?_⟩
  intro heq
  rw [← heq, habsent] at hvic
  cases hvic

/-- A page access keeps the frames of RAM owned: a frame passes from the victim to the
page. -/
theorem RamOwned.page (h : RamOwned k) {pgn : Addr} {res : Option Addr}
    (hpage : PageStep k pgn res k') : RamOwned k' := by
  cases hpage with
  | present => exact h
  | noVictim => exact h
  | @dropped vicpgn fifoPgn habsent hfifo hfail =>
      refine ⟨h.frames, ?_, fun p hp => h.fifo_resident p (by rw [hfifo]; simp [hp])⟩
      have hnodup := h.fifo_nodup
      rw [hfifo, List.map_append] at hnodup
      exact hnodup.of_append_left
  | @evicted vicpgn swpfpn fifoPgn rest mswp habsent hfifo hvictim hfree hrest hmax =>
      have habs := (views_eq_absent_iff _ _).mpr habsent
      obtain ⟨vicfpn, hvic, hfpn, hfits, -⟩ := h.victim habs hfifo
      rw [hfpn]
      have hnodup := h.fifo_nodup
      rw [hfifo, List.map_append, List.nodup_append] at hnodup
      have hnotmem := h.not_mem_fifo habs
      rw [hfifo, List.map_append, List.mem_append, not_or] at hnotmem
      constructor
      · simp only
        rw [views_evict _ _ _ _ hfits, Function.comp_update, Function.comp_update]
        exact h.frames.pass (by simp [hvic, PageView.frame])
          (by simp [habs, PageView.frame])
      · exact List.nodup_cons.mpr ⟨hnotmem.1, hnodup.1⟩
      · simp only
        rw [views_evict _ _ _ _ hfits]
        intro p hp
        rcases List.mem_cons.mp hp with rfl | hp
        · exact ⟨vicfpn, Function.update_self ..⟩
        · have hpkey : pageKey p ∈ fifoPgn.map pageKey := List.mem_map_of_mem hp
          have hppgn : pageKey p ≠ pageKey pgn := fun heq => hnotmem.1 (heq ▸ hpkey)
          have hpvic : pageKey p ≠ pageKey vicpgn := fun heq =>
            hnodup.2.2 _ hpkey _ (by simp) heq
          rw [Function.update_of_ne hppgn, Function.update_of_ne hpvic]
          exact h.fifo_resident p (by rw [hfifo]; simp [hp])

/-! ## Growth -/

/-- A growth has at most `2 ^ 20` pages, since it is an `int`. -/
theorem growCount_le (size : Addr) : growCount size ≤ 2 ^ 20 := by
  have hcount : pageCount ((incSize size).setWidth 64) ≤ 2 ^ 20 := by
    have hinc := (incSize size).isLt
    rw [pageCount, BitVec.toNat_setWidth]
    omega
  rw [growCount, incCount_eq (by omega)]
  exact hcount

/-- The pages of a growth are different entries of the page table. -/
theorem newPages_nodup (addr : Addr) {n : Nat} (hn : n ≤ 2 ^ 20) :
    ((newPages addr n).map pageKey).Nodup := by
  rw [newPages, List.map_map]
  apply List.Nodup.map_on _ List.nodup_range
  intro i hi j hj hkey
  rw [List.mem_range] at hi hj
  have hi' := toNat_pageOffset (show i < 2 ^ 20 by omega)
  have hj' := toNat_pageOffset (show j < 2 ^ 20 by omega)
  have heq := congrArg BitVec.toNat hkey
  simp only [Function.comp_apply, pageKey, pageAddr, BitVec.toNat_setWidth,
    BitVec.toNat_ushiftRight, BitVec.toNat_add, Nat.shiftRight_eq_div_pow, hi', hj'] at heq
  have haddr := addr.isLt
  split_ifs at heq <;> omega

/-- The new pages of one growth are different. -/
theorem framePairs_nodup (mram : Memphy) (addr : Addr) {n : Nat} (hn : n ≤ 2 ^ 20) :
    ((framePairs mram addr n).map fun pf => pageKey pf.1).Nodup := by
  by_cases hfit : n ≤ mram.freeFpList.length
  · have hkeys := newPages_nodup addr hn
    rw [← framePairs_fst addr hfit, List.map_map] at hkeys
    exact hkeys
  · rw [framePairs, if_neg hfit]
    exact List.nodup_nil

/-- A growth takes its frames off the free list, one for each new page. -/
theorem growPairs_spec (k : Krnl m) (vma : VmArea) (caller : Caller) (size : Addr) :
    ((growPairs k vma caller size).map fun pf => pageKey pf.1).Nodup ∧
      k.mram.freeFpList.Perm ((growPairs k vma caller size).map Prod.snd ++
        (growMram k caller size).freeFpList) := by
  by_cases hcan : CanExtend k caller size
  · constructor
    · rw [growPairs, if_pos hcan.1]
      exact framePairs_nodup k.mram vma.vmEnd (growCount_le size)
    · have hsnd : (growPairs k vma caller size).map Prod.snd =
          (k.mram.freeFpList.take (growCount size)).reverse := by
        rw [growPairs, if_pos hcan.1, framePairs, if_pos hcan.2, List.map_snd_zip]
        simp only [newPages, List.length_reverse, List.length_take, List.length_map,
          List.length_range]
        exact Nat.min_le_left _ _
      rw [hsnd, growMram, if_pos hcan.1, takeFrames, if_pos hcan.2]
      have hsplit := List.take_append_drop (growCount size) k.mram.freeFpList
      have hperm := (List.reverse_perm (k.mram.freeFpList.take (growCount size))).symm
      have happend := hperm.append_right (k.mram.freeFpList.drop (growCount size))
      rw [hsplit] at happend
      exact happend
  · have hnone : growPairs k vma caller size = [] ∧
        growMram k caller size = k.mram := by
      unfold CanExtend at hcan
      unfold growPairs growMram framePairs takeFrames
      by_cases hfound : caller.found = true
      · have hshort : ¬ growCount size ≤ k.mram.freeFpList.length :=
          fun hle => hcan ⟨hfound, hle⟩
        simp [hfound, hshort]
      · simp [hfound]
    rw [hnone.1, hnone.2]
    exact ⟨List.nodup_nil, List.Perm.refl _⟩

/-- The keys of the pages on the FIFO list after a growth. -/
theorem keys_fifoPgn_grow (k : Krnl m) (vma : VmArea) (caller : Caller)
    (i : Fin maxSymtblSz) (size : Addr) (freerg : List VmRg) :
    (k.grow vma caller i size freerg).mm.fifoPgn.map pageKey =
      ((growPairs k vma caller size).map fun pf => pageKey pf.1).reverse ++
        k.mm.fifoPgn.map pageKey := by
  rw [fifoPgn_grow, List.map_append, List.map_reverse, List.map_map]
  rfl

/-- A growth puts no page on the FIFO list twice exactly when no new page has been there. -/
theorem nodup_fifoPgn_grow_iff (hnodup : (k.mm.fifoPgn.map pageKey).Nodup)
    (caller : Caller) (i : Fin maxSymtblSz) (size : Addr) (freerg : List VmRg) :
    ((k.grow vma caller i size freerg).mm.fifoPgn.map pageKey).Nodup ↔
      ∀ pf ∈ growPairs k vma caller size, pageKey pf.1 ∉ k.mm.fifoPgn.map pageKey := by
  rw [keys_fifoPgn_grow, List.nodup_append, List.nodup_reverse]
  constructor
  · rintro ⟨-, -, hne⟩ pf hpf hmem
    exact hne _ (List.mem_reverse.mpr (List.mem_map_of_mem hpf)) _ hmem rfl
  · intro hnot
    refine ⟨(growPairs_spec k vma caller size).1, hnodup, ?_⟩
    rintro key hkey key' hkey' rfl
    obtain ⟨pf, hpf, rfl⟩ := List.mem_map.mp (List.mem_reverse.mp hkey)
    exact hnot pf hpf hkey'

/-- The pages that mappings make resident are their pages. -/
theorem map_fst_residents (pfs : List (Addr × Addr)) :
    (residents pfs).map Prod.fst = pfs.map fun pf => pageKey pf.1 := by
  rw [residents, List.map_map]
  rfl

/-- The pages do not depend on the field. -/
theorem map_fst_fieldPairs (pfs : List (Addr × Addr)) :
    (fieldPairs pfs).map (fun pf => pageKey pf.1) = pfs.map fun pf => pageKey pf.1 := by
  rw [fieldPairs, List.map_map]
  rfl

/-- What the page table says after a growth. -/
theorem views_grow (k : Krnl m) (vma : VmArea) (caller : Caller) (i : Fin maxSymtblSz)
    (size : Addr) (freerg : List VmRg) :
    views (k.grow vma caller i size freerg).mm.pgd =
      assign (residents (fieldPairs (growPairs k vma caller size))) (views k.mm.pgd) :=
  views_mapPages_field k.mm _

/-- A page of the growth is resident afterwards. -/
theorem views_grow_of_mem {caller : Caller} {size : Addr} (i : Fin maxSymtblSz)
    (freerg : List VmRg) {pf : Addr × Addr} (hpf : pf ∈ growPairs k vma caller size) :
    views (k.grow vma caller i size freerg).mm.pgd (pageKey pf.1) =
      .resident (fpnField pf.2) := by
  rw [views_grow]
  apply assign_of_mem
  · rw [map_fst_residents, map_fst_fieldPairs]
    exact (growPairs_spec k vma caller size).1
  · exact List.mem_map_of_mem (List.mem_map_of_mem hpf)

/-- The other pages are as they were. -/
theorem views_grow_of_not_mem {caller : Caller} {size : Addr} (i : Fin maxSymtblSz)
    (freerg : List VmRg) {key : BitVec 45}
    (hkey : key ∉ (growPairs k vma caller size).map fun pf => pageKey pf.1) :
    views (k.grow vma caller i size freerg).mm.pgd key = views k.mm.pgd key := by
  rw [views_grow]
  apply assign_of_not_mem
  rwa [map_fst_residents, map_fst_fieldPairs]

/-- The pages that a growth maps are not present, and its frames fit their field. -/
def GrowsFresh (k : Krnl m) (vma : VmArea) (caller : Caller) (size : Addr) : Prop :=
  ∀ pf ∈ growPairs k vma caller size,
    pagePresent (pteGetEntry k.mm.pgd pf.1) = false ∧ FpnFits pf.2

/-- What the table says after a growth. -/
theorem GrowsFresh.views_grow {caller : Caller} {size : Addr}
    (hfresh : GrowsFresh k vma caller size) (i : Fin maxSymtblSz) (freerg : List VmRg) :
    views (k.grow vma caller i size freerg).mm.pgd =
      assign (residents (growPairs k vma caller size)) (views k.mm.pgd) :=
  views_mapPages k.mm _ fun pf hpf => (hfresh pf hpf).2

/-- A page that is mapped for the first time was absent. -/
theorem GrowsFresh.absent {caller : Caller} {size : Addr}
    (hfresh : GrowsFresh k vma caller size) {key : BitVec 45}
    (hkey : key ∈ (growPairs k vma caller size).map fun pf => pageKey pf.1) :
    views k.mm.pgd key = .absent := by
  obtain ⟨pf, hpf, rfl⟩ := List.mem_map.mp hkey
  exact (views_eq_absent_iff _ _).mpr (hfresh pf hpf).1

/-- A page of the growth is resident afterwards. -/
theorem GrowsFresh.views_of_mem {caller : Caller} {size : Addr}
    (hfresh : GrowsFresh k vma caller size) (i : Fin maxSymtblSz) (freerg : List VmRg)
    {pf : Addr × Addr} (hpf : pf ∈ growPairs k vma caller size) :
    views (k.grow vma caller i size freerg).mm.pgd (pageKey pf.1) = .resident pf.2 := by
  rw [views_grow_of_mem i freerg hpf, fpnField_of_fits (hfresh pf hpf).2]

/-- A page that was present before is as it was. -/
theorem GrowsFresh.views_of_present {caller : Caller} {size : Addr}
    (hfresh : GrowsFresh k vma caller size) (i : Fin maxSymtblSz) (freerg : List VmRg)
    {key : BitVec 45} (hpresent : views k.mm.pgd key ≠ .absent) :
    views (k.grow vma caller i size freerg).mm.pgd key = views k.mm.pgd key :=
  views_grow_of_not_mem i freerg fun hkey => hpresent (hfresh.absent hkey)

/-- The frames of a growth go from the free list to the new pages. -/
theorem RamOwned.grow_frames (h : RamOwned k) {caller : Caller} {size : Addr}
    (hfresh : GrowsFresh k vma caller size) :
    Owned k.mram.HasFrame (growMram k caller size).freeFpList
      (PageView.frame ∘ assign (residents (growPairs k vma caller size))
        (views k.mm.pgd)) := by
  obtain ⟨hnodup, hperm⟩ := growPairs_spec k vma caller size
  have hpairs : (residents (growPairs k vma caller size)).map
      (Prod.map id PageView.frame) =
      ((growPairs k vma caller size).map fun pf => (pageKey pf.1, pf.2)).map
        (Prod.map id some) := by
    simp [residents, PageView.frame]
  rw [comp_assign, hpairs]
  apply Owned.assign
  · rw [List.map_map]
    exact hnodup
  · intro key hkey
    rw [List.map_map] at hkey
    rw [Function.comp_apply, hfresh.absent hkey]
    rfl
  · rw [List.map_map]
    exact h.frames.perm hperm

/-- Growth keeps the frames of RAM owned. -/
theorem RamOwned.grow (h : RamOwned k) {caller : Caller} {size : Addr}
    (hfresh : GrowsFresh k vma caller size) (i : Fin maxSymtblSz) (freerg : List VmRg) :
    RamOwned (k.grow vma caller i size freerg) := by
  constructor
  · have hdom : (k.grow vma caller i size freerg).mram.HasFrame = k.mram.HasFrame :=
      Memphy.hasFrame_congr (growMram_frame k caller size).2.1
    rw [hfresh.views_grow i freerg, hdom]
    exact h.grow_frames hfresh
  · rw [nodup_fifoPgn_grow_iff h.fifo_nodup]
    intro pf hpf
    exact h.not_mem_fifo (hfresh.absent (List.mem_map_of_mem hpf))
  · intro p hp
    rw [fifoPgn_grow, List.mem_append, List.mem_reverse] at hp
    rcases hp with hp | hp
    · obtain ⟨pf, hpf, rfl⟩ := List.mem_map.mp hp
      exact ⟨pf.2, hfresh.views_of_mem i freerg hpf⟩
    · obtain ⟨fpn, hres⟩ := h.fifo_resident p hp
      refine ⟨fpn, (hfresh.views_of_present i freerg ?_).trans hres⟩
      simp [hres]

/-- What does not touch the page table, the FIFO list and the free frames keeps the
frames of RAM owned. -/
theorem RamOwned.congr (h : RamOwned k) (hmm : k'.mm.pgd = k.mm.pgd)
    (hfifo : k'.mm.fifoPgn = k.mm.fifoPgn)
    (hfree : k'.mram.freeFpList = k.mram.freeFpList)
    (hmax : k'.mram.maxsz = k.mram.maxsz) : RamOwned k' := by
  constructor
  · rw [hmm, hfree, Memphy.hasFrame_congr hmax]
    exact h.frames
  · rw [hfifo]
    exact h.fifo_nodup
  · rw [hmm, hfifo]
    exact h.fifo_resident

/-- To write a byte to RAM changes no owner. -/
theorem RamOwned.poke (h : RamOwned k) (phyaddr : Addr) (value : Byte) :
    RamOwned (k.poke phyaddr value) :=
  h.congr rfl rfl rfl rfl

/-- The frames that `MEMPHY_format` puts on the free list are those of the device. -/
theorem owned_format {maxsz : Nat} (hmax : maxsz < 2 ^ 31) {stale : List Addr}
    (hstale : 2 * pageSz ≤ maxsz ∨ stale = []) :
    Owned (Memphy.initMemphy maxsz true stale).HasFrame
      (Memphy.initMemphy maxsz true stale).freeFpList
      (fun _ : BitVec 45 => none) := by
  apply Owned.init
  · rw [Memphy.initMemphy, Memphy.format_exact hstale]
    apply List.Nodup.map_on _ List.nodup_range
    intro i hi j hj heq
    rw [List.mem_range, pageSz] at hi hj
    have hval := congrArg BitVec.toNat heq
    simp only [BitVec.toNat_ofNat] at hval
    omega
  · intro fpn
    rw [Memphy.initMemphy, Memphy.format_exact hstale, Memphy.HasFrame, List.mem_map]
    constructor
    · rintro ⟨i, hi, rfl⟩
      rw [List.mem_range, pageSz] at hi
      rw [BitVec.toNat_ofNat, pageSz]
      simp only
      omega
    · intro hlt
      refine ⟨fpn.toNat, List.mem_range.mpr hlt, ?_⟩
      rw [BitVec.ofNat_toNat, BitVec.setWidth_eq]

/-- All entries are 0 at first. -/
theorem pteGetEntry_boot (b : Boot) (p : Addr) :
    pteGetEntry (b.krnl : Krnl m).mm.pgd p = 0 := by
  rw [pteGetEntry_eq]
  exact congrArg (BitVec.setWidth 32) (pageEntry_empty _)

/-- All pages are absent at the beginning. -/
theorem views_boot (b : Boot) : views (b.krnl : Krnl m).mm.pgd = fun _ => .absent := by
  funext key
  rw [views, pteGetEntry_boot]
  decide

/-- All frames of RAM are free at the beginning. -/
theorem ramOwned_boot (b : Boot) (hstale : 2 * pageSz ≤ b.memramsz ∨ b.staleMram = []) :
    RamOwned (b.krnl : Krnl m) := by
  constructor
  · rw [views_boot]
    exact owned_format b.memramsz_lt hstale
  · exact List.nodup_nil
  · intro p hp
    cases hp

/-- So are those of the swap device. -/
theorem swapOwned_boot (b : Boot)
    (hstale : 2 * pageSz ≤ b.memswpsz ∨ b.staleMswp = []) :
    SwapOwned (b.krnl : Krnl m) := by
  rw [SwapOwned, views_boot]
  exact owned_format b.memswpsz_lt hstale

/-! ## The frames of the swap device -/

/-- A page access keeps the frames of the swap device owned, when the frame that an
eviction takes fits the field of an entry. -/
theorem SwapOwned.page (h : SwapOwned k) (hram : RamOwned k) {pgn : Addr}
    {res : Option Addr} (hpage : PageStep k pgn res k')
    (hfits : pagePresent (pteGetEntry k.mm.pgd pgn) = false → k.mm.fifoPgn ≠ [] →
      ∀ swpfpn ∈ k.activeMswp.freeFpList.head?, SwpoffFits swpfpn) : SwapOwned k' := by
  cases hpage with
  | present => exact h
  | noVictim => exact h
  | dropped => exact h
  | @evicted vicpgn swpfpn fifoPgn rest mswp habsent hfifo hvictim hfree hrest hmax =>
      have habs := (views_eq_absent_iff _ _).mpr habsent
      obtain ⟨vicfpn, hvic, hfpn, hvicfits, hne⟩ := hram.victim habs hfifo
      have hswp : SwpoffFits swpfpn :=
        hfits habsent (by rw [hfifo]; simp) swpfpn (by rw [hfree]; rfl)
      have htake : Owned k.activeMswp.HasFrame rest
          (Function.update (PageView.slot ∘ views k.mm.pgd) (pageKey vicpgn)
            (some swpfpn)) := by
        apply Owned.take
        · rw [← hfree]
          exact h
        · rw [Function.comp_apply, hvic]
          rfl
      unfold SwapOwned
      simp only
      rw [Memphy.hasFrame_congr hmax, hrest, hfpn, views_evict _ _ _ _ hvicfits,
        Function.comp_update, Function.comp_update, swapSlot_of_fits hswp]
      -- the page that becomes resident had no swap frame before
      have hsame : Function.update
          (Function.update (PageView.slot ∘ views k.mm.pgd) (pageKey vicpgn)
            (some swpfpn)) (pageKey pgn) none =
          Function.update (PageView.slot ∘ views k.mm.pgd) (pageKey vicpgn)
            (some swpfpn) := by
        apply Function.update_eq_self_iff.mpr
        rw [Function.update_of_ne hne, Function.comp_apply, habs]
        rfl
      rw [← hsame] at htake
      exact htake

/-- Growth maps pages that had no swap frame. -/
theorem SwapOwned.grow (h : SwapOwned k) {caller : Caller} {size : Addr}
    (hfresh : GrowsFresh k vma caller size) (i : Fin maxSymtblSz) (freerg : List VmRg) :
    SwapOwned (k.grow vma caller i size freerg) := by
  have hslot : PageView.slot ∘ views (k.grow vma caller i size freerg).mm.pgd =
      PageView.slot ∘ views k.mm.pgd := by
    funext key
    rw [Function.comp_apply, Function.comp_apply]
    by_cases hkey : key ∈ (growPairs k vma caller size).map fun pf => pageKey pf.1
    · rw [hfresh.absent hkey]
      obtain ⟨pf, hpf, rfl⟩ := List.mem_map.mp hkey
      rw [hfresh.views_of_mem i freerg hpf]
      rfl
    · rw [views_grow_of_not_mem i freerg hkey]
  unfold SwapOwned
  rw [hslot]
  exact h

/-! ## Runs -/

/-- The virtual address of an access that the checks admit. -/
def MemCall.vaddr (k : Krnl m) (call : MemCall) : Option (BitVec 32) :=
  call.target.bind fun t => (accessAddr k 0 t.1 t.2).join

/-- An allocation that extends the area maps pages that are not present. -/
def AllocFresh (k : Krnl m) : MemCall → Prop
  | .alloc caller _ size =>
      ∀ vma ∈ k.mm.mmap, ¬ Fits vma size → GrowsFresh k vma caller size
  | _ => True

/-- The next swap frame fits its field. -/
def SwapHeadFits (k : Krnl m) : Prop :=
  ∀ swpfpn ∈ k.activeMswp.freeFpList.head?, SwpoffFits swpfpn

/-- The swap frame that an eviction takes fits its field. -/
def EvictionFits (k : Krnl m) (call : MemCall) : Prop :=
  ∀ vaddr ∈ call.vaddr k, pagePresent (pteGetEntry k.mm.pgd (pagingPgn vaddr)) = false →
    k.mm.fifoPgn ≠ [] → SwapHeadFits k

/-- The instructions that keep all frames owned. -/
def FrameSafe (k : Krnl m) (call : MemCall) (_ : Krnl m) : Prop :=
  AllocFresh k call ∧ EvictionFits k call

/-- The address of an access that the checks admit. -/
theorem MemCall.vaddr_eq {call : MemCall} {rgid : Int} {offset : Addr}
    {vaddr : BitVec 32} (htarget : call.target = some (rgid, offset))
    (haddr : accessAddr k 0 rgid offset = some (some vaddr)) :
    call.vaddr k = some vaddr := by
  simp [MemCall.vaddr, htarget, haddr]

/-- An allocation that finds no free region is one that must map fresh pages. -/
theorem AllocFresh.growsFresh (harea : OneArea k vma) {caller : Caller} {rgid : Int}
    {size : Addr} {freerg : List VmRg}
    (hfresh : AllocFresh k (.alloc caller rgid size))
    (hget : getFreeVmrgArea vma.vmFreergList (size.setWidth 32) = (none, freerg)) :
    GrowsFresh k vma caller size :=
  hfresh vma (by rw [harea.mmap]; simp) (not_fits_of_none hget)

/-- Every instruction that maps fresh pages keeps the frames of RAM owned. -/
theorem RamOwned.step (h : RamOwned k) (harea : OneArea k vma) {call : MemCall}
    {a : Answer} (hfresh : AllocFresh k call) (hstep : MemStep k vma call a k') :
    RamOwned k' := by
  cases hstep with
  | hit => exact h.congr rfl rfl rfl rfl
  | grow hindex hget => exact h.grow (hfresh.growsFresh harea hget) _ _
  | freed => exact h.congr rfl rfl rfl rfl
  | notFreed => exact h
  | rejected => exact h
  | failed _ _ hpage => exact h.page hpage
  | read _ hpage => exact h.page hpage
  | written _ hpage => exact (h.page hpage).poke _ _

/-- The same for the frames of the swap device. -/
theorem SwapOwned.step (h : SwapOwned k) (hram : RamOwned k) (harea : OneArea k vma)
    {call : MemCall} {a : Answer} (hsafe : FrameSafe k call k')
    (hstep : MemStep k vma call a k') : SwapOwned k' := by
  obtain ⟨hfresh, hfits⟩ := hsafe
  cases hstep with
  | hit => exact h
  | grow hindex hget => exact h.grow (hfresh.growsFresh harea hget) _ _
  | freed => exact h
  | notFreed => exact h
  | rejected => exact h
  | failed htarget haddr hpage =>
      exact h.page hram hpage (hfits _ (MemCall.vaddr_eq htarget haddr))
  | read haddr hpage =>
      exact h.page hram hpage (hfits _ (MemCall.vaddr_eq rfl haddr))
  | written haddr hpage =>
      have hswap := h.page hram hpage (hfits _ (MemCall.vaddr_eq rfl haddr))
      exact hswap

/-- Every frame of RAM is exactly once on the free list or the frame of exactly one
resident page, and every frame of the swap device is exactly once on the free list or
the offset of exactly one page that is swapped out. -/
def FramesOwned (k : Krnl m) : Prop :=
  (∀ fpn : Addr, fpn.toNat < k.mram.maxsz / pageSz →
    (k.mram.freeFpList.count fpn = 1 ∧
      ∀ key, views k.mm.pgd key ≠ .resident fpn) ∨
    (k.mram.freeFpList.count fpn = 0 ∧
      ∃! key, views k.mm.pgd key = .resident fpn)) ∧
  ∀ swpfpn : Addr, swpfpn.toNat < k.activeMswp.maxsz / pageSz →
    (k.activeMswp.freeFpList.count swpfpn = 1 ∧
      ∀ key, views k.mm.pgd key ≠ .swapped swpfpn) ∨
    (k.activeMswp.freeFpList.count swpfpn = 0 ∧
      ∃! key, views k.mm.pgd key = .swapped swpfpn)

/-- The owners of both devices together. -/
theorem framesOwned_of (hram : RamOwned k) (hswap : SwapOwned k) : FramesOwned k := by
  constructor
  · intro fpn hfpn
    simpa [PageView.frame_eq_some] using hram.frames.exactly_once hfpn
  · intro swpfpn hswpfpn
    simpa [PageView.slot_eq_some] using Owned.exactly_once hswap hswpfpn

/-- No frame is lost or shared, as long as the allocations map pages that are not
present and all frame numbers fit their fields. -/
theorem frames_owned (b : Boot) (hmram : 2 * pageSz ≤ b.memramsz ∨ b.staleMram = [])
    (hmswp : 2 * pageSz ≤ b.memswpsz ∨ b.staleMswp = [])
    {es : List (MemCall × Answer)} {k : Krnl m}
    (hrun : Lts.Run (Stepped FrameSafe) b.krnl es k) : FramesOwned k := by
  have hinv : (∃ vma, OneArea k vma) ∧ RamOwned k ∧ SwapOwned k := by
    apply invariant_of_boot b hrun ⟨ramOwned_boot b hmram, swapOwned_boot b hmswp⟩
    rintro k k' vma call a harea ⟨hram, hswap⟩ hsafe hstep
    exact ⟨hram.step harea hsafe.1 hstep, hswap.step hram harea hsafe hstep⟩
  exact framesOwned_of hinv.2.1 hinv.2.2

instance : DecidablePred FpnFits :=
  fun fpn => inferInstanceAs (Decidable (fpn.toNat < 2 ^ 13))

instance (k : Krnl m) (vma : VmArea) (caller : Caller) (size : Addr) :
    Decidable (GrowsFresh k vma caller size) :=
  List.decidableBAll (fun pf : Addr × Addr =>
    pagePresent (pteGetEntry k.mm.pgd pf.1) = false ∧ FpnFits pf.2) _

instance (k : Krnl m) (call : MemCall) : Decidable (AllocFresh k call) :=
  match call with
  | .alloc caller _ size =>
      List.decidableBAll (fun vma => ¬ Fits vma size → GrowsFresh k vma caller size) _
  | .free _ => instDecidableTrue
  | .read _ _ => instDecidableTrue
  | .write _ _ _ => instDecidableTrue

instance : DecidablePred SwpoffFits :=
  fun swpoff => inferInstanceAs (Decidable (swpoff.toNat < 2 ^ 21))

instance (k : Krnl m) : Decidable (SwapHeadFits k) :=
  Option.decidableForallMem _

instance (k : Krnl m) (call : MemCall) : Decidable (EvictionFits k call) :=
  Option.decidableForallMem _

instance (k k' : Krnl m) (call : MemCall) : Decidable (FrameSafe k call k') :=
  inferInstanceAs (Decidable (_ ∧ _))

/-- A write to the second 256 bytes of a region evicts its first page. -/
theorem frames_owned_evicted :
    ∃ (es : List (MemCall × Answer)) (k : Krnl countingMalloc),
      Lts.Run (Stepped FrameSafe) smallBoot.krnl es k ∧
      (views k.mm.pgd 0 = .swapped 0 ∧ views k.mm.pgd 1 = .resident 0) ∧
      FramesOwned k := by
  obtain ⟨es, k, hrun, hobs⟩ := Lts.record_observe
    FrameSafe (fun (k : Krnl countingMalloc) call => call.run k) smallBoot.krnl
    [.alloc soleCaller 0 1024, .write 0 300 7]
    (fun _ k => (views k.mm.pgd 0, views k.mm.pgd 1))
    (v := (.swapped 0, .resident 0)) (by decide +kernel)
  exact ⟨es, k, hrun, Prod.mk.inj hobs,
    frames_owned smallBoot (Or.inr rfl) (Or.inr rfl) hrun⟩

/-- Sixty-four frames of RAM and sixteen of swap. -/
def mediumBoot : Boot where
  __ := smallBoot
  memramsz := 16384
  memramsz_lt := by decide

/-- The second allocation maps page 1 although a write has faulted it in.  The page is
on the FIFO list twice now, and when it is the victim for the second time, the offset
of its swap frame is taken for a frame of RAM: page 3 gets frame 32, which is free. -/
theorem not_frames_owned :
    ¬ ∀ (b : Boot), (2 * pageSz ≤ b.memramsz ∨ b.staleMram = []) →
      (2 * pageSz ≤ b.memswpsz ∨ b.staleMswp = []) →
      ∀ (es : List (MemCall × Answer)) (k : Krnl countingMalloc),
        Lts.Run (Stepped fun _ call _ => call.InRange) b.krnl es k → FramesOwned k := by
  intro hclaim
  obtain ⟨es, k, hrun, hobs⟩ := Lts.record_observe
    (fun (_ : Krnl countingMalloc) (call : MemCall) _ => call.InRange)
    (fun k call => call.run k) mediumBoot.krnl
    [.alloc soleCaller 0 1024, .write 0 256 1, .alloc soleCaller 1 1, .write 0 512 2,
      .write 0 768 3]
    (fun _ k => (k.mram.maxsz, k.mram.freeFpList.count 32, views k.mm.pgd 3))
    (v := (16384, 1, .resident 32)) (by decide +kernel)
  obtain ⟨hmax, hcount, hview⟩ : k.mram.maxsz = 16384 ∧ k.mram.freeFpList.count 32 = 1 ∧
      views k.mm.pgd 3 = .resident 32 := by simpa using hobs
  have howned := (hclaim mediumBoot (Or.inr rfl) (Or.inr rfl) es k hrun).1 32
    (by rw [hmax]; decide)
  rcases howned with ⟨-, hnone⟩ | ⟨hzero, -⟩
  · exact hnone 3 hview
  · rw [hcount] at hzero
    cases hzero

end Memory
end Hdh
