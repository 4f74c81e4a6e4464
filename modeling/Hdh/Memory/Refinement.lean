import Hdh.Library.FlatMemory
import Hdh.Memory.Frames

/-!
# Paged memory refines flat memory

The abstract memory has regions with sizes and bytes.  A byte that has been written is
in the frame of its page, or its page has been swapped out since.  `pg_getpage` never
brings a page back: it takes the entry of a page that is swapped out for the entry of
a resident one.

Main results:

- Theorems `Holds.page` and `Holds.poke`: page accesses and writes to other addresses
  keep a byte where it is.
- Theorem `Refines.step`: every instruction that maps fresh pages and does not access a
  page that is swapped out is a step of the flat memory.
- Theorem `reads_back`: what has been written is read back in such runs.
-/

namespace Hdh
namespace Memory

open Ownership

variable {m : Radix.Malloc Nat 0} {k k' : Krnl m} {vma : VmArea}

/-! ## Addresses -/

/-- The page of 256 bytes that is looked up for an address. -/
def addrKey (va : Nat) : BitVec 45 := BitVec.ofNat 45 (va / 256)

/-- The page number is in the bits 8 to 21 of the address. -/
theorem pagingPgn_toNat (vaddr : BitVec 32) :
    (pagingPgn vaddr).toNat = vaddr.toNat / 256 % 2 ^ 14 := by
  have heq : pagingPgn vaddr = BitVec.ofNat 64 (vaddr.toNat / 256 % 2 ^ 14) := by
    apply BitVec.eq_of_getLsbD_eq
    intro i hi
    have hdiv : (vaddr.toNat / 256).testBit i = vaddr.getLsbD (8 + i) := by
      rw [show 256 = 2 ^ 8 from rfl, Nat.testBit_div_two_pow, BitVec.getLsbD, Nat.add_comm]
    rw [BitVec.getLsbD_ofNat, Nat.testBit_mod_two_pow, hdiv]
    by_cases hlow : i < 14
    · have hle : 8 + i ≤ 21 := by omega
      have hi64 : 8 + i < 64 := by omega
      simp [pagingPgn, getVal, getLsbD_genmask, hi, hlow, hle, hi64]
    · have hle : ¬ 8 + i ≤ 21 := by omega
      simp [pagingPgn, getVal, getLsbD_genmask, hlow, hle]
  rw [heq, BitVec.toNat_ofNat]
  omega

theorem pagingPgn_eq {vaddr : BitVec 32} (h : vaddr.toNat < 2 ^ 22) :
    pagingPgn vaddr = BitVec.ofNat 64 (vaddr.toNat / 256) := by
  apply BitVec.eq_of_toNat_eq
  rw [pagingPgn_toNat, BitVec.toNat_ofNat]
  omega

theorem pageKey_pagingPgn {vaddr : BitVec 32} (h : vaddr.toNat < 2 ^ 22) :
    pageKey (pagingPgn vaddr) = addrKey vaddr.toNat := by
  rw [pagingPgn_eq h, pageKey, addrKey, BitVec.setWidth_ofNat_of_le (by omega)]

/-- The offset is in the bits 0 to 7. -/
theorem pagingOffst_toNat (vaddr : BitVec 32) :
    (pagingOffst vaddr).toNat = vaddr.toNat % 256 := by
  have heq : pagingOffst vaddr = BitVec.ofNat 64 (vaddr.toNat % 256) := by
    apply BitVec.eq_of_getLsbD_eq
    intro i hi
    have hbit : vaddr.toNat.testBit i = vaddr.getLsbD i := rfl
    rw [BitVec.getLsbD_ofNat, show 256 = 2 ^ 8 from rfl, Nat.testBit_mod_two_pow, hbit]
    by_cases hlow : i < 8
    · have hle : i ≤ 7 := by omega
      simp [pagingOffst, getVal, getLsbD_genmask, hi, hlow, hle]
    · have hle : ¬ i ≤ 7 := by omega
      simp [pagingOffst, getVal, getLsbD_genmask, hlow, hle]
  rw [heq, BitVec.toNat_ofNat]
  omega

/-- The address of a byte in its frame. -/
theorem phyAddr_toNat {fpn : Addr} (hfits : FpnFits fpn) (vaddr : BitVec 32) :
    (phyAddr fpn (pagingOffst vaddr)).toNat = fpn.toNat * 256 + vaddr.toNat % 256 := by
  unfold FpnFits at hfits
  rw [phyAddr, BitVec.toNat_add, BitVec.toNat_shiftLeft, pagingOffst_toNat,
    Nat.shiftLeft_eq]
  omega

/-- Different addresses below 4 MiB differ in the page or in the offset. -/
theorem addrKey_inj {va va' : Nat} (h : va < 2 ^ 22) (h' : va' < 2 ^ 22)
    (hkey : addrKey va = addrKey va') (hoff : va % 256 = va' % 256) : va = va' := by
  have hval := congrArg BitVec.toNat hkey
  simp only [addrKey, BitVec.toNat_ofNat] at hval
  omega

/-! ## Where a byte is -/

/-- A page gives a byte when the byte is in its frame; a page that is swapped out
promises nothing. -/
def PageView.Gives (view : PageView) (storage : Nat → Byte) (va : Nat) (v : Byte) : Prop :=
  match view with
  | .absent => False
  | .resident fpn => storage (fpn.toNat * 256 + va % 256) = v
  | .swapped _ => True

/-- The memory has a byte at an address. -/
def Holds (k : Krnl m) (va : Nat) (v : Byte) : Prop :=
  va < 2 ^ 22 ∧ (views k.mm.pgd (addrKey va)).Gives k.mram.storage va v

/-- What leaves the page and the bytes of RAM alone leaves the byte. -/
theorem Holds.congr {va : Nat} {v : Byte} (h : Holds k va v)
    (hview : views k'.mm.pgd (addrKey va) = views k.mm.pgd (addrKey va))
    (hstorage : k'.mram.storage = k.mram.storage) : Holds k' va v := by
  refine ⟨h.1, ?_⟩
  rw [hview, hstorage]
  exact h.2

/-- A byte is at a page that is present. -/
theorem Holds.not_absent {va : Nat} {v : Byte} (h : Holds k va v) :
    views k.mm.pgd (addrKey va) ≠ .absent := by
  intro habs
  have hgives := h.2
  rw [habs] at hgives
  exact hgives

/-- A page access keeps every byte, in RAM or on the swap device. -/
theorem Holds.page {va : Nat} {v : Byte} (h : Holds k va v) {pgn : Addr}
    {res : Option Addr} (hpage : PageStep k pgn res k') : Holds k' va v := by
  cases hpage with
  | present => exact h
  | noVictim => exact h
  | dropped => exact h
  | @evicted vicpgn swpfpn fifoPgn rest mswp habsent hfifo hvictim hfree hrest hmax =>
      have hviews := views_evict k.mm.pgd vicpgn swpfpn pgn
        (pagingFpn_fits (pteGetEntry k.mm.pgd vicpgn))
      have habs := (views_eq_absent_iff _ _).mpr habsent
      have hpgn : addrKey va ≠ pageKey pgn := by
        intro heq
        exact h.not_absent (heq ▸ habs)
      by_cases hvic : addrKey va = pageKey vicpgn
      · refine ⟨h.1, ?_⟩
        simp only
        rw [hviews, Function.update_of_ne hpgn, hvic, Function.update_self]
        exact trivial
      · refine h.congr ?_ ?_
        · simp only
          rw [hviews, Function.update_of_ne hpgn, Function.update_of_ne hvic]
        · rfl

/-- Growth maps fresh pages and keeps every byte. -/
theorem Holds.grow {va : Nat} {v : Byte} (h : Holds k va v) {caller : Caller}
    {size : Addr} (hfresh : GrowsFresh k vma caller size) (i : Fin maxSymtblSz)
    (freerg : List VmRg) : Holds (k.grow vma caller i size freerg) va v := by
  apply h.congr
  · exact hfresh.views_of_present i freerg h.not_absent
  · exact (growMram_frame k caller size).2.2

/-- A write to another address keeps the byte. -/
theorem Holds.poke {va va' : Nat} {v' value : Byte} (h : Holds k va' v')
    (hram : RamOwned k) {fpn phyaddr : Addr}
    (hres : views k.mm.pgd (addrKey va) = .resident fpn)
    (hphy : phyaddr.toNat = fpn.toNat * 256 + va % 256) (hva : va < 2 ^ 22)
    (hne : va' ≠ va) : Holds (k.poke phyaddr value) va' v' := by
  refine ⟨h.1, ?_⟩
  have hgives := h.2
  have hpgd : (k.poke phyaddr value).mm.pgd = k.mm.pgd := rfl
  rw [hpgd]
  cases hview : views k.mm.pgd (addrKey va') with
  | absent => exact absurd hview h.not_absent
  | swapped swpoff => exact trivial
  | resident fpn' =>
      rw [hview] at hgives
      have hother : fpn'.toNat * 256 + va' % 256 ≠ phyaddr.toNat := by
        rw [hphy]
        intro heq
        have hoff : va' % 256 = va % 256 := by omega
        have hfpn : fpn' = fpn := BitVec.eq_of_toNat_eq (by omega)
        have hkey := hram.frames.held_inj (addrKey va') (addrKey va) fpn
          (by simp [hview, hfpn, PageView.frame]) (by simp [hres, PageView.frame])
        exact hne (addrKey_inj h.1 hva hkey hoff)
      exact (Function.update_of_ne hother _ _).trans hgives

/-- The byte that has been written is there. -/
theorem holds_poke {va : Nat} {fpn phyaddr : Addr} (value : Byte)
    (hres : views k.mm.pgd (addrKey va) = .resident fpn)
    (hphy : phyaddr.toNat = fpn.toNat * 256 + va % 256) (hva : va < 2 ^ 22) :
    Holds (k.poke phyaddr value) va value := by
  refine ⟨hva, ?_⟩
  have hpgd : (k.poke phyaddr value).mm.pgd = k.mm.pgd := rfl
  rw [hpgd, hres, PageView.Gives, ← hphy]
  exact Function.update_self ..

/-- The page is not marked as swapped out. -/
def NotSwapped (k : Krnl m) (pgn : Addr) : Prop :=
  pagePresent (pteGetEntry k.mm.pgd pgn) = true →
    pageSwapped (pteGetEntry k.mm.pgd pgn) = false

/-- The frame that a page access answers is the frame of the page. -/
theorem resident_of_page {pgn fpn : Addr} (hpage : PageStep k pgn (some fpn) k')
    (hnot : NotSwapped k pgn) :
    views k'.mm.pgd (pageKey pgn) = .resident fpn ∧ FpnFits fpn := by
  cases hpage with
  | present hpresent =>
      refine ⟨?_, pagingFpn_fits _⟩
      rw [views_pageKey, pageView, if_pos hpresent,
        if_neg (Bool.eq_false_iff.mp (hnot hpresent))]
  | evicted habsent hfifo hvictim hfree hrest hmax =>
      refine ⟨?_, pagingFpn_fits _⟩
      simp only
      rw [views_evict _ _ _ _ (pagingFpn_fits _), Function.update_self]

/-! ## The simulation -/

/-- The number of bytes of a region. -/
def VmRg.len (r : VmRg) : Nat := (r.rgEnd - r.rgStart).toNat

theorem VmRg.len_span (start size : Addr) : VmRg.len ⟨start, start + size⟩ = size.toNat := by
  unfold len
  bv_omega

theorem VmRg.len_pos {r : VmRg} (h : ¬ r.Empty) : 0 < r.len := by
  unfold Empty at h
  unfold len
  bv_omega

theorem VmRg.len_eq_zero {r : VmRg} (h : r.Empty) (hle : r.rgStart ≤ r.rgEnd) :
    r.len = 0 := by
  unfold Empty at h
  unfold len
  bv_omega

/-- The operation of the flat memory that an instruction stands for. -/
def MemCall.op : MemCall → Flat.Op Int Byte
  | .alloc _ rgid size => .alloc rgid size.toNat
  | .free rgid => .free rgid
  | .read rgid offset => .read rgid offset.toNat
  | .write rgid offset value => .write rgid offset.toNat value

/-- An instruction with its answer, as an event of the flat memory. -/
def flatEvent (e : MemCall × Answer) : Flat.Op Int Byte × Flat.Ans Byte :=
  (e.1.op, ⟨decide (e.2.stat = 0), e.2.data⟩)

/-- An access that fails may fail, and it changes nothing. -/
theorem flatEvent_failed (s : Flat.State Int Byte) {call : MemCall}
    {target : Int × Addr} (htarget : call.target = some target) :
    s.Admits (flatEvent (call, ⟨-1, none⟩)) ∧
      s.next (flatEvent (call, ⟨-1, none⟩)) = s := by
  cases call with
  | alloc => cases htarget
  | free => cases htarget
  | read rgid offset => exact ⟨⟨by simp, fun _ => rfl⟩, rfl⟩
  | write rgid offset value => exact ⟨⟨by simp, rfl⟩, rfl⟩

/-- The kernel implements a state of the flat memory. -/
structure Refines (k : Krnl m) (vma : VmArea) (s : Flat.State Int Byte) : Prop where
  alloc : Allocated k vma
  ram : RamOwned k
  size : ∀ rgid i, symIndex rgid = some i → s.size rgid = (k.mm.symrgtbl i).len
  byte : ∀ rgid i off v, symIndex rgid = some i → s.byte rgid off = some v →
    off < (k.mm.symrgtbl i).len ∧ Holds k ((k.mm.symrgtbl i).rgStart.toNat + off) v

/-- The bounds of a region, as numbers. -/
theorem Allocated.bounds (h : Allocated k vma) (i : Fin maxSymtblSz) :
    (k.mm.symrgtbl i).rgStart.toNat + (k.mm.symrgtbl i).len =
      (k.mm.symrgtbl i).rgEnd.toNat ∧
    (k.mm.symrgtbl i).rgEnd.toNat ≤ vma.sbrk.toNat := by
  have hbelow := h.regions.sym_below i
  unfold VmRg.Below at hbelow
  unfold VmRg.len
  bv_omega

/-- Bytes of different regions are at different addresses. -/
theorem Allocated.address_ne (h : Allocated k vma) {i j : Fin maxSymtblSz} (hij : i ≠ j)
    {off off' : Nat} (hoff : off < (k.mm.symrgtbl i).len)
    (hoff' : off' < (k.mm.symrgtbl j).len) :
    (k.mm.symrgtbl i).rgStart.toNat + off ≠ (k.mm.symrgtbl j).rgStart.toNat + off' := by
  have hi := (h.bounds i).1
  have hj := (h.bounds j).1
  have hapart := h.regions.sym_apart i j hij
  unfold VmRg.Apart VmRg.Empty at hapart
  simp only [BitVec.le_def] at hapart
  omega

/-- An access that the checks admit is inside of its region. -/
theorem Allocated.access (h : Allocated k vma) {rgid : Int} {offset : Addr}
    {vaddr : BitVec 32} (haddr : accessAddr k 0 rgid offset = some (some vaddr)) :
    ∃ i, symIndex rgid = some i ∧ offset.toNat < (k.mm.symrgtbl i).len ∧
      vaddr.toNat = (k.mm.symrgtbl i).rgStart.toNat + offset.toNat := by
  obtain ⟨i, hindex, hoff, -, rfl⟩ := accessAddr_eq_some h.area haddr
  have hbounds := h.bounds i
  have hlt := h.sbrk_lt
  have hlen : offset.toNat < (k.mm.symrgtbl i).len := hoff
  refine ⟨i, hindex, hlen, ?_⟩
  rw [BitVec.toNat_setWidth, BitVec.toNat_add]
  omega

/-- An access that the checks reject is outside of its region. -/
theorem Allocated.reject (h : Allocated k vma) {rgid : Int} {offset : Addr}
    (haddr : accessAddr k 0 rgid offset = some none) {i : Fin maxSymtblSz}
    (hindex : symIndex rgid = some i) : (k.mm.symrgtbl i).len ≤ offset.toNat := by
  rcases accessAddr_eq_none h.area haddr hindex with hempty | hpast
  · rw [VmRg.len_eq_zero hempty (h.regions.sym_below i).1]
    exact Nat.zero_le _
  · exact hpast

/-- A region of the table changes, and no byte moves. -/
theorem Refines.region {vma' : VmArea} {s : Flat.State Int Byte} (h : Refines k vma s)
    (halloc : Allocated k' vma') (hram : RamOwned k')
    (hholds : ∀ va v, Holds k va v → Holds k' va v) {rgid : Int} {i : Fin maxSymtblSz}
    (hindex : symIndex rgid = some i) {rg : VmRg}
    (hsym : k'.mm.symrgtbl = Function.update k.mm.symrgtbl i rg) :
    Refines k' vma' ⟨Function.update s.size rgid rg.len,
      Function.update s.byte rgid fun _ => none⟩ := by
  refine ⟨halloc, hram, ?_, ?_⟩
  · intro rgid' j hj
    rw [hsym]
    by_cases hrgid : rgid' = rgid
    · subst hrgid
      obtain rfl : i = j := Option.some.inj (hindex.symm.trans hj)
      simp
    · have hji : j ≠ i := fun heq => hrgid (symIndex_inj (heq ▸ hj) hindex)
      simp [Function.update_of_ne hrgid, Function.update_of_ne hji, h.size rgid' j hj]
  · intro rgid' j off v hj hbyte
    by_cases hrgid : rgid' = rgid
    · subst hrgid
      simp at hbyte
    · have hji : j ≠ i := fun heq => hrgid (symIndex_inj (heq ▸ hj) hindex)
      simp only [Function.update_of_ne hrgid] at hbyte
      obtain ⟨hlt, hheld⟩ := h.byte rgid' j off v hj hbyte
      rw [hsym, Function.update_of_ne hji]
      exact ⟨hlt, hholds _ _ hheld⟩

/-- A page access is not a step of the flat memory. -/
theorem Refines.page {s : Flat.State Int Byte} (h : Refines k vma s) {pgn : Addr}
    {res : Option Addr} (hpage : PageStep k pgn res k') : Refines k' vma s := by
  have hsym := hpage.frame.2.1
  refine ⟨h.alloc.page hpage, h.ram.page hpage, ?_, ?_⟩
  · rw [hsym]
    exact h.size
  · intro rgid i off v hi hbyte
    rw [hsym]
    obtain ⟨hlt, hheld⟩ := h.byte rgid i off v hi hbyte
    exact ⟨hlt, hheld.page hpage⟩

/-- A byte of a region is written. -/
theorem Refines.poke {s : Flat.State Int Byte} (h : Refines k vma s) {rgid : Int}
    {i : Fin maxSymtblSz} (hindex : symIndex rgid = some i) {off : Nat}
    (hoff : off < (k.mm.symrgtbl i).len) {fpn phyaddr : Addr} (value : Byte)
    (hva : (k.mm.symrgtbl i).rgStart.toNat + off < 2 ^ 22)
    (hres : views k.mm.pgd (addrKey ((k.mm.symrgtbl i).rgStart.toNat + off)) =
      .resident fpn)
    (hphy : phyaddr.toNat =
      fpn.toNat * 256 + ((k.mm.symrgtbl i).rgStart.toNat + off) % 256) :
    Refines (k.poke phyaddr value) vma ⟨s.size,
      Function.update s.byte rgid (Function.update (s.byte rgid) off (some value))⟩ := by
  refine ⟨h.alloc.poke _ _, h.ram.poke _ _, h.size, ?_⟩
  intro rgid' j off' v hj hbyte
  by_cases hrgid : rgid' = rgid
  · subst hrgid
    obtain rfl : i = j := Option.some.inj (hindex.symm.trans hj)
    simp only [Function.update_self] at hbyte
    by_cases hsame : off' = off
    · subst hsame
      rw [Function.update_self] at hbyte
      cases hbyte
      exact ⟨hoff, holds_poke value hres hphy hva⟩
    · rw [Function.update_of_ne hsame] at hbyte
      obtain ⟨hlt, hheld⟩ := h.byte _ _ _ _ hj hbyte
      exact ⟨hlt, hheld.poke h.ram hres hphy hva (by omega)⟩
  · have hji : j ≠ i := fun heq => hrgid (symIndex_inj (heq ▸ hj) hindex)
    simp only [Function.update_of_ne hrgid] at hbyte
    obtain ⟨hlt, hheld⟩ := h.byte _ _ _ _ hj hbyte
    exact ⟨hlt, hheld.poke h.ram hres hphy hva (h.alloc.address_ne hji hlt hoff)⟩

/-! ## Steps -/

/-- The address of an access lies below 4 MiB, and its page is not swapped out. -/
def AccessResident (k : Krnl m) (call : MemCall) : Prop :=
  ∀ vaddr ∈ call.vaddr k, vaddr.toNat < 2 ^ 22 ∧ NotSwapped k (pagingPgn vaddr)

/-- The instructions on which the pages behave like a flat memory. -/
def PagedSafe (k : Krnl m) (call : MemCall) (k' : Krnl m) : Prop :=
  InBounds k call k' ∧ AllocFresh k call ∧ AccessResident k call

/-- A successful access reaches the frame of the page of its address. -/
theorem Refines.access {s : Flat.State Int Byte} (h : Refines k vma s) {rgid : Int}
    {offset fpn : Addr} {vaddr : BitVec 32}
    (haddr : accessAddr k 0 rgid offset = some (some vaddr))
    (hpage : PageStep k (pagingPgn vaddr) (some fpn) k') (hlow : vaddr.toNat < 2 ^ 22)
    (hnot : NotSwapped k (pagingPgn vaddr)) :
    ∃ i, symIndex rgid = some i ∧ offset.toNat < (k'.mm.symrgtbl i).len ∧
      vaddr.toNat = (k'.mm.symrgtbl i).rgStart.toNat + offset.toNat ∧
      views k'.mm.pgd (addrKey vaddr.toNat) = .resident fpn ∧
      (phyAddr fpn (pagingOffst vaddr)).toNat =
        fpn.toNat * 256 + vaddr.toNat % 256 := by
  obtain ⟨i, hindex, hlen, hva⟩ := h.alloc.access haddr
  obtain ⟨hres, hfits⟩ := resident_of_page hpage hnot
  rw [pageKey_pagingPgn hlow] at hres
  rw [hpage.frame.2.1]
  exact ⟨i, hindex, hlen, hva, hres, phyAddr_toNat hfits vaddr⟩

/-- Every safe instruction is a step of the flat memory. -/
theorem Refines.step {s : Flat.State Int Byte} (h : Refines k vma s)
    (hsbrk : vma.sbrk.toNat < 2 ^ 31) {call : MemCall} {a : Answer}
    (hsafe : PagedSafe k call k') (hstep : MemStep k vma call a k') :
    s.Admits (flatEvent (call, a)) ∧
      ∃ vma', Refines k' vma' (s.next (flatEvent (call, a))) := by
  obtain ⟨⟨hrange, -⟩, hfresh, haccess⟩ := hsafe
  cases hstep with
  | @hit caller rgid size i rg freerg hindex hget =>
      obtain ⟨halloc, hlen⟩ := h.alloc.hit hrange.2.2 hget i
      have hregion := h.region halloc (h.ram.congr rfl rfl rfl rfl)
        (fun va v hv => hv.congr rfl rfl) hindex rfl
      have hsize : rg.len = size.toNat := hlen
      rw [hsize] at hregion
      exact ⟨⟨rfl, rfl⟩, _, hregion⟩
  | @grow caller rgid size i freerg hindex hget =>
      have hgrows := hfresh.growsFresh h.alloc.area hget
      have hregion := h.region (h.alloc.grow hsbrk hrange.2.2 hget caller i)
        (h.ram.grow hgrows i freerg) (fun va v hv => hv.grow hgrows i freerg) hindex rfl
      rw [VmRg.len_span] at hregion
      exact ⟨⟨rfl, rfl⟩, _, hregion⟩
  | @freed rgid i hindex hlive =>
      have hregion := h.region (h.alloc.freed i) (h.ram.congr rfl rfl rfl rfl)
        (fun va v hv => hv.congr rfl rfl) hindex rfl
      have hpos : 0 < s.size rgid := by
        rw [h.size rgid i hindex]
        exact VmRg.len_pos hlive
      exact ⟨⟨by simpa [flatEvent] using hpos, rfl⟩, _, hregion⟩
  | @notFreed rgid hnot =>
      obtain ⟨i, hindex⟩ := symIndex_of_range hrange
      have hzero := VmRg.len_eq_zero (hnot i hindex) (h.alloc.regions.sym_below i).1
      have hregion := h.region h.alloc h.ram (fun va v hv => hv) hindex
        (Function.update_eq_self i k.mm.symrgtbl).symm
      rw [hzero] at hregion
      refine ⟨⟨?_, rfl⟩, vma, hregion⟩
      rw [h.size rgid i hindex, hzero]
      simp
  | rejected htarget haddr =>
      obtain ⟨hadmits, hsame⟩ := flatEvent_failed s htarget
      rw [hsame]
      exact ⟨hadmits, vma, h⟩
  | failed htarget haddr hpage =>
      obtain ⟨hadmits, hsame⟩ := flatEvent_failed s htarget
      rw [hsame]
      exact ⟨hadmits, vma, h.page hpage⟩
  | @read rgid offset fpn vaddr k' haddr hpage =>
      obtain ⟨hlow, hnot⟩ := haccess vaddr (MemCall.vaddr_eq rfl haddr)
      obtain ⟨i, hindex, hlen, hva, hres, hphy⟩ := h.access haddr hpage hlow hnot
      have hr := h.page hpage
      refine ⟨⟨fun _ => ⟨?_, ?_⟩, by simp⟩, vma, hr⟩
      · rw [hr.size rgid i hindex]
        exact hlen
      · intro v hbyte
        have hheld := (hr.byte rgid i offset.toNat v hindex hbyte).2.2
        rw [← hva, hres, PageView.Gives, ← hphy] at hheld
        exact congrArg some hheld
  | @written rgid offset fpn vaddr value k' haddr hpage =>
      obtain ⟨hlow, hnot⟩ := haccess vaddr (MemCall.vaddr_eq rfl haddr)
      obtain ⟨i, hindex, hlen, hva, hres, hphy⟩ := h.access haddr hpage hlow hnot
      have hr := h.page hpage
      rw [hva] at hlow hres hphy
      refine ⟨⟨fun _ => ?_, rfl⟩, vma, hr.poke hindex hlen value hlow hres hphy⟩
      rw [hr.size rgid i hindex]
      exact hlen

/-- The memory is flat and empty at the beginning. -/
theorem refines_boot (b : Boot) (hstale : b.staleFreerg = [])
    (hmram : 2 * pageSz ≤ b.memramsz ∨ b.staleMram = []) :
    Refines (b.krnl : Krnl m) ⟨0, 0, 0, 0, [⟨0, 0⟩]⟩ Flat.State.init := by
  refine ⟨allocated_boot b hstale, ramOwned_boot b hmram, ?_, ?_⟩
  · intro rgid i _
    have hzero : (⟨0, 0⟩ : VmRg).len = 0 := by decide
    exact hzero.symm
  · intro rgid i off v _ hbyte
    cases hbyte

/-! ## Runs -/

/-- What a run has made of the memory: a state of the flat memory, with answers that
the flat memory gives. -/
structure Refined (es : List (MemCall × Answer)) (k : Krnl m) : Prop where
  small : k.SbrkSmall
  admits : Flat.Always Flat.State.Admits (es.map flatEvent)
  refines : ∃ vma, Refines k vma (Flat.after (es.map flatEvent))

/-- Every run of safe instructions is a run of the flat memory. -/
theorem refined_of_run (b : Boot) (hstale : b.staleFreerg = [])
    (hmram : 2 * pageSz ≤ b.memramsz ∨ b.staleMram = []) {es : List (MemCall × Answer)}
    {k : Krnl m} (hrun : Lts.Run (Stepped PagedSafe) b.krnl es k) : Refined es k := by
  apply hrun.history
  · exact ⟨sbrkSmall_boot b, Flat.always_nil _, _, refines_boot b hstale hmram⟩
  · rintro es k ⟨call, a⟩ k' ⟨hsmall, hadmits, vma, hr⟩ ⟨hsafe, hcall⟩
    obtain ⟨hgiven, hr'⟩ :=
      hr.step (hr.alloc.area.sbrk_lt hsmall) hsafe (run_step hr.alloc.area hcall)
    refine ⟨hsafe.1.2, ?_, ?_⟩
    · rw [List.map_append]
      exact Flat.always_snoc.mpr ⟨hadmits, hgiven⟩
    · rw [List.map_append, List.map_cons, List.map_nil, Flat.after_snoc]
      exact hr'

/-- Neither a later successful write to the same place, nor a `FREE` or an `ALLOC` of
the same index. -/
def Undisturbed (rgid : Int) (offset : Addr) : MemCall × Answer → Prop
  | (.alloc _ rgid' _, _) => rgid' ≠ rgid
  | (.free rgid', _) => rgid' ≠ rgid
  | (.read _ _, _) => True
  | (.write rgid' offset' _, a) => ¬ (a.stat = 0 ∧ rgid' = rgid ∧ offset' = offset)

theorem leaves_of_undisturbed {rgid : Int} {offset : Addr} {e : MemCall × Answer}
    (h : Undisturbed rgid offset e) : Flat.Leaves rgid offset.toNat (flatEvent e) := by
  obtain ⟨call, a⟩ := e
  cases call with
  | alloc caller rgid' size => exact h
  | free rgid' => exact h
  | read rgid' offset' => exact trivial
  | write rgid' offset' value =>
      intro hok hrgid hoff
      exact h ⟨of_decide_eq_true hok, hrgid, BitVec.eq_of_toNat_eq hoff⟩

/-- In every history, a read that answers 0 gives the byte of an earlier write to the
same place that answered 0 and has not been disturbed. -/
def ReadsBack (es : List (MemCall × Answer)) : Prop :=
  ∀ pre mid post rgid offset value w a,
    es = pre ++ (MemCall.write rgid offset value, w) :: mid ++
      (MemCall.read rgid offset, a) :: post →
    w.stat = 0 → a.stat = 0 → (∀ e ∈ mid, Undisturbed rgid offset e) →
      a.data = some value

/-- Paged memory refines flat memory, as long as allocations map pages that are not
present and no access goes to a page that is swapped out or to an address from 4 MiB
on. -/
theorem reads_back (b : Boot) (hstale : b.staleFreerg = [])
    (hmram : 2 * pageSz ≤ b.memramsz ∨ b.staleMram = []) {es : List (MemCall × Answer)}
    {k : Krnl m} (hrun : Lts.Run (Stepped PagedSafe) b.krnl es k) : ReadsBack es := by
  rintro pre mid post rgid offset value w a rfl hw ha hmid
  have hadmits := (refined_of_run b hstale hmram hrun).admits
  simp only [List.map_append, List.map_cons] at hadmits
  apply Flat.read_of_written hadmits (decide_eq_true hw) (decide_eq_true ha)
  intro f hf
  obtain ⟨e, he, rfl⟩ := List.mem_map.mp hf
  exact leaves_of_undisturbed (hmid e he)

instance (k : Krnl m) (pgn : Addr) : Decidable (NotSwapped k pgn) :=
  inferInstanceAs (Decidable (_ = true → _ = false))

instance (k : Krnl m) (call : MemCall) : Decidable (AccessResident k call) :=
  Option.decidableForallMem
    (p := fun vaddr : BitVec 32 => vaddr.toNat < 2 ^ 22 ∧ NotSwapped k (pagingPgn vaddr))
    _

instance (k k' : Krnl m) (call : MemCall) : Decidable (PagedSafe k call k') :=
  inferInstanceAs (Decidable (_ ∧ _ ∧ _))

/-- Two bytes of the second page of a region are written, and the first one is read
back; the first page has been evicted for them. -/
theorem reads_back_second_page :
    ∃ (es : List (MemCall × Answer)) (k : Krnl countingMalloc),
      Lts.Run (Stepped PagedSafe) smallBoot.krnl es k ∧
      views k.mm.pgd 0 = .swapped 0 ∧ ReadsBack es := by
  obtain ⟨es, k, hrun, hobs⟩ := Lts.record_observe
    PagedSafe (fun (k : Krnl countingMalloc) call => call.run k) smallBoot.krnl
    [.alloc soleCaller 0 1024, .write 0 300 7, .write 0 301 8, .read 0 300]
    (fun _ k => views k.mm.pgd 0) (v := .swapped 0) (by decide +kernel)
  exact ⟨es, k, hrun, hobs, reads_back smallBoot rfl (Or.inr rfl) hrun⟩

/-- The byte 1 is written at the beginning of a region and 2 at offset 256, for which
the page of the first byte is evicted.  The first byte is read from the frame of the
second one then: the call answers 0 and gives 2. -/
theorem not_reads_back :
    ¬ ∀ (b : Boot), b.staleFreerg = [] →
      (2 * pageSz ≤ b.memramsz ∨ b.staleMram = []) →
      ∀ (es : List (MemCall × Answer)) (k : Krnl countingMalloc),
        Lts.Run (Stepped InBounds) b.krnl es k → ReadsBack es := by
  intro hclaim
  obtain ⟨es, k, hrun, hobs⟩ := Lts.record_observe
    InBounds (fun (k : Krnl countingMalloc) call => call.run k) smallBoot.krnl
    [.alloc soleCaller 0 512, .write 0 0 1, .write 0 256 2, .read 0 0]
    (fun es _ => es)
    (v := [(.alloc soleCaller 0 512, ⟨0, none⟩), (.write 0 0 1, ⟨0, none⟩),
      (.write 0 256 2, ⟨0, none⟩), (.read 0 0, ⟨0, some 2⟩)]) (by decide +kernel)
  subst hobs
  have hback := hclaim smallBoot rfl (Or.inr rfl) _ k hrun
  have hdata := hback [(.alloc soleCaller 0 512, ⟨0, none⟩)]
    [(.write 0 256 2, ⟨0, none⟩)] [] 0 0 1 ⟨0, none⟩ ⟨0, some 2⟩ rfl rfl rfl (by
      intro e he
      rw [List.mem_singleton.mp he]
      exact fun h => absurd h.2.2 (by decide))
  exact absurd hdata (by decide)

end Memory
end Hdh
