import Hdh.Library.Runs
import Hdh.Memory.Paging

/-!
# What the functions of the memory manager do

One lemma for each function says everything that a call can do to a memory with
the one area that `init_mm` creates; the invariants use these lemmas and do not
unfold the functions again.

Main results:

- Theorem `allocPagesRange_eq`: all the frames asked for or none.
- Theorem `alloc_step`: an allocation takes a free region, or extends the area and
  maps what the growth brings.
- Theorem `run_step`: everything that an instruction can do.
- Theorem `invariant_of_boot`: what the first memory has and each of these steps keeps
  holds after every run.
-/

namespace Hdh
namespace Memory

variable {m : Radix.Malloc Nat 0} {k k' : Krnl m}

/-! ## Growth -/

/-- The frames go back to the free list one by one. -/
theorem foldl_putFreefp (frmLst : List Addr) (mram : Memphy) :
    frmLst.foldl Memphy.putFreefp mram =
      { mram with freeFpList := frmLst.reverse ++ mram.freeFpList } := by
  induction frmLst generalizing mram with
  | nil => rfl
  | cons fpn frmLst ih =>
      rw [List.foldl_cons, ih]
      simp [Memphy.putFreefp]

/-- The loop takes all its frames from the free list, or gives those it has taken back. -/
theorem allocLoop_eq (n : Nat) (frmLst : List Addr) (mram : Memphy) :
    allocLoop n frmLst mram =
      if n ≤ mram.freeFpList.length then
        (0, (mram.freeFpList.take n).reverse ++ frmLst,
          { mram with freeFpList := mram.freeFpList.drop n })
      else (-1, [], { mram with freeFpList := frmLst.reverse ++ mram.freeFpList }) := by
  induction n generalizing frmLst mram with
  | zero => simp [allocLoop]
  | succ n ih =>
      cases hfree : mram.freeFpList with
      | nil =>
          have hget : mram.getFreefp = none := by
            rw [Memphy.getFreefp_eq_none_iff, hfree]
          simp [allocLoop, hget, foldl_putFreefp, hfree]
      | cons fpn rest =>
          have hget : mram.getFreefp = some (fpn, { mram with freeFpList := rest }) := by
            rw [Memphy.getFreefp, hfree]
          simp only [allocLoop, hget, ih, List.length_cons, Nat.add_le_add_iff_right]
          split_ifs <;> simp

/-- All the frames asked for, in reverse order, or none and RAM as before. -/
theorem allocPagesRange_eq (mram : Memphy) (reqPgnum : Int) :
    allocPagesRange mram reqPgnum =
      if reqPgnum.toNat ≤ mram.freeFpList.length then
        (0, (mram.freeFpList.take reqPgnum.toNat).reverse,
          { mram with freeFpList := mram.freeFpList.drop reqPgnum.toNat })
      else (-1, [], mram) := by
  rw [allocPagesRange, allocLoop_eq]
  simp

/-- The pages that a growth of `n` pages at `addr` enters. -/
def newPages (addr : Addr) (n : Nat) : List Addr :=
  (List.range n).map fun pgit => pageAddr addr pgit >>> 12

/-- Enter pages with their frames, one after the other. -/
def Mm.mapPages (mm : Mm m) (pfs : List (Addr × Addr)) : Mm m :=
  pfs.foldl (fun mm pf => mm.mapPage pf.1 pf.2) mm

/-- The loop maps its pages to its frames in order. -/
theorem vmapLoop_eq (addr : Addr) (n pgit : Nat) (frames : List Addr) (mm : Mm m) :
    vmapLoop addr (pgit + n) pgit frames mm =
      mm.mapPages (((List.range' pgit n).map fun i => pageAddr addr i >>> 12).zip
        frames) := by
  induction frames generalizing pgit n mm with
  | nil => simp [vmapLoop, Mm.mapPages]
  | cons fpn frames ih =>
      cases n with
      | zero => simp [vmapLoop, Mm.mapPages]
      | succ n =>
          have hlt : pgit < pgit + (n + 1) := by omega
          have hsum : pgit + (n + 1) = pgit + 1 + n := by omega
          rw [vmapLoop, if_pos hlt, hsum, ih, List.range'_succ, List.map_cons,
            List.zip_cons_cons, Mm.mapPages, Mm.mapPages, List.foldl_cons]

/-- `vmap_page_range` maps the new pages to the frames. -/
theorem vmapPageRange_eq (mm : Mm m) (addr : Addr) (pgnum : Int) (frames : List Addr) :
    vmapPageRange mm addr pgnum frames =
      (0, mm.mapPages ((newPages addr pgnum.toNat).zip frames)) := by
  have hloop := vmapLoop_eq addr pgnum.toNat 0 frames mm
  rw [Nat.zero_add, ← List.range_eq_range'] at hloop
  rw [vmapPageRange, hloop]
  rfl

/-- Mappings leave the areas and the regions alone, and enter their pages in the FIFO list. -/
theorem mapPages_frame (mm : Mm m) (pfs : List (Addr × Addr)) :
    (mm.mapPages pfs).mmap = mm.mmap ∧ (mm.mapPages pfs).symrgtbl = mm.symrgtbl ∧
      (mm.mapPages pfs).fifoPgn = (pfs.map Prod.fst).reverse ++ mm.fifoPgn ∧
      (mm.mapPages pfs).entered = (pfs.map Prod.fst).reverse ++ mm.entered := by
  induction pfs generalizing mm with
  | nil => exact ⟨rfl, rfl, rfl, rfl⟩
  | cons pf pfs ih =>
      obtain ⟨hmmap, hsym, hfifo, hent⟩ := ih (mm.mapPage pf.1 pf.2)
      refine ⟨hmmap, hsym, ?_, ?_⟩
      · exact hfifo.trans (by simp [Mm.mapPage])
      · exact hent.trans (by simp [Mm.mapPage])

/-- The pages that `pgnum` new frames of RAM would be mapped to, with their frames;
none when there are not enough frames. -/
def framePairs (mram : Memphy) (mapstart : Addr) (pgnum : Nat) : List (Addr × Addr) :=
  if pgnum ≤ mram.freeFpList.length then
    (newPages mapstart pgnum).zip (mram.freeFpList.take pgnum).reverse
  else []

/-- With enough frames, all new pages get one. -/
theorem framePairs_fst {mram : Memphy} {pgnum : Nat} (mapstart : Addr)
    (hfit : pgnum ≤ mram.freeFpList.length) :
    (framePairs mram mapstart pgnum).map Prod.fst = newPages mapstart pgnum := by
  rw [framePairs, if_pos hfit, List.map_fst_zip]
  simp [newPages, hfit]

/-- RAM after these frames have been taken. -/
def takeFrames (mram : Memphy) (pgnum : Nat) : Memphy :=
  if pgnum ≤ mram.freeFpList.length then
    { mram with freeFpList := mram.freeFpList.drop pgnum }
  else mram

/-- `vm_map_ram` maps all pages or none, and answers 0 in both cases. -/
theorem vmMapRam_eq (k : Krnl m) (mapstart : Addr) (incpgnum : Int) :
    vmMapRam k mapstart incpgnum =
      (0, { k with
        mm := k.mm.mapPages (framePairs k.mram mapstart incpgnum.toNat)
        mram := takeFrames k.mram incpgnum.toNat }) := by
  rw [vmMapRam, allocPagesRange_eq]
  unfold framePairs takeFrames
  split_ifs with hfit <;> simp [vmapPageRange_eq, Mm.mapPages]

/-- Mapping pages does not look at the areas. -/
theorem mapPages_mmap (mm : Mm m) (mmap : List VmArea) (pfs : List (Addr × Addr)) :
    { mm with mmap := mmap }.mapPages pfs = { mm.mapPages pfs with mmap := mmap } := by
  induction pfs generalizing mm with
  | nil => rfl
  | cons pf pfs ih => exact ih (mm.mapPage pf.1 pf.2)

/-- How many pages `inc_vma_limit` maps for an increment. -/
def incCount (incSz : Addr) : Nat :=
  ((page64AlignSz incSz / page64Sz).setWidth 32).toInt.toNat

/-- How many pages an increment asks for. -/
def pageCount (incSz : Addr) : Nat :=
  (incSz.toNat + 4095) / 4096

/-- A page of the table has 4096 bytes. -/
theorem page64Sz_toNat : page64Sz.toNat = 4096 :=
  rfl

/-- The growth is rounded up to whole pages. -/
theorem page64AlignSz_toNat {incSz : Addr} (hsize : incSz.toNat < 2 ^ 63) :
    (page64AlignSz incSz).toNat = 4096 * pageCount incSz := by
  have hone : (1 : Addr).toNat = 1 := rfl
  rw [page64AlignSz, pageCount, BitVec.toNat_mul, BitVec.toNat_udiv, BitVec.toNat_sub,
    BitVec.toNat_add, page64Sz_toNat, hone]
  omega

/-- Up to `2 ^ 31` pages, their number is not cut off. -/
theorem incCount_eq {incSz : Addr} (hcount : pageCount incSz < 2 ^ 31) :
    incCount incSz = pageCount incSz := by
  have hsize : incSz.toNat < 2 ^ 63 := by
    unfold pageCount at hcount
    omega
  have hdiv : (page64AlignSz incSz / page64Sz).toNat = pageCount incSz := by
    rw [BitVec.toNat_udiv, page64AlignSz_toNat hsize, page64Sz_toNat]
    omega
  rw [incCount, toInt_setWidth_of_lt (by rwa [hdiv]), hdiv]
  rfl

/-- `inc_vma_limit` answers -1 before it has changed anything. -/
def TurnedAway (k : Krnl m) (vmaid : Int) (incSz : Addr) : Prop :=
  getVmaByNum k.mm.mmap vmaid = some none ∨
    ∃ pos area, getVmaByNum k.mm.mmap vmaid = some (some pos) ∧
      k.mm.mmap[pos]? = some area ∧
      validateOverlapVmArea k.mm.mmap vmaid area.vmEnd
        (area.vmEnd + page64AlignSz incSz) < 0

/-- The kernel after an area has been extended: its end has moved, and the new pages have
been mapped when there are frames for all of them. -/
def Krnl.extend (k : Krnl m) (pos : Nat) (area : VmArea) (incSz : Addr) : Krnl m :=
  { k with
    mm := (k.mm.modifyVma pos fun a =>
      { a with vmEnd := area.vmEnd + page64AlignSz incSz }).mapPages
        (framePairs k.mram area.vmEnd (incCount incSz))
    mram := takeFrames k.mram (incCount incSz) }

/-- An extension moves the end of its area, and puts the new pages on the lists. -/
theorem extend_frame (k : Krnl m) (pos : Nat) (area : VmArea) (incSz : Addr) :
    (k.extend pos area incSz).mm.mmap = (k.mm.mmap.modify pos fun a =>
        { a with vmEnd := area.vmEnd + page64AlignSz incSz }) ∧
      (k.extend pos area incSz).mm.fifoPgn =
        ((framePairs k.mram area.vmEnd (incCount incSz)).map Prod.fst).reverse ++
          k.mm.fifoPgn ∧
      (k.extend pos area incSz).mm.entered =
        ((framePairs k.mram area.vmEnd (incCount incSz)).map Prod.fst).reverse ++
          k.mm.entered := by
  obtain ⟨hmmap, -, hfifo, hent⟩ := mapPages_frame
    (k.mm.modifyVma pos fun a => { a with vmEnd := area.vmEnd + page64AlignSz incSz })
    (framePairs k.mram area.vmEnd (incCount incSz))
  exact ⟨hmmap, hfifo, hent⟩

/-- A request that is turned away changes nothing. -/
theorem incVmaLimit_turnedAway {vmaid : Int} {incSz : Addr}
    (h : TurnedAway k vmaid incSz) : incVmaLimit k vmaid incSz = some (-1, k) := by
  unfold incVmaLimit
  split_ifs with hzero
  · rfl
  · rcases h with hnull | ⟨pos, area, hpos, harea, hover⟩
    · simp only [hnull]
    · simp only [hpos, harea, hover, if_true]

/-- The answer of `vm_map_ram` is unsigned: the second rollback is never reached. -/
theorem incVmaLimit_extend {vmaid : Int} {incSz : Addr} (hne : incSz ≠ 0) {pos : Nat}
    {area : VmArea} (hpos : getVmaByNum k.mm.mmap vmaid = some (some pos))
    (harea : k.mm.mmap[pos]? = some area)
    (hvalid : ¬ validateOverlapVmArea k.mm.mmap vmaid area.vmEnd
      (area.vmEnd + page64AlignSz incSz) < 0) :
    incVmaLimit k vmaid incSz = some (0, k.extend pos area incSz) := by
  have hneg : ∀ a : Addr, ¬ a < 0 := fun a => BitVec.not_lt_zero
  rw [incVmaLimit, if_neg hne]
  simp only [hpos, harea, hvalid, vmMapRam_eq, hneg, if_false]
  rfl

/-! ## The one area -/

/-- The list of areas that `init_mm` creates, and RAM with random access. -/
structure OneArea (k : Krnl m) (vma : VmArea) : Prop where
  mmap : k.mm.mmap = [vma]
  vmId : vma.vmId = 0
  random : k.mram.rdmflg = true

/-- An access of a page leaves the area alone. -/
theorem OneArea.page {vma : VmArea} (h : OneArea k vma) {pgn : Addr} {res : Option Addr}
    (hpage : PageStep k pgn res k') : OneArea k' vma where
  mmap := hpage.frame.1.trans h.mmap
  vmId := h.vmId
  random := by rw [hpage.frame.2.2.2, h.random]

/-- Area 0 is found. -/
theorem OneArea.getVmaByNum {vma : VmArea} (h : OneArea k vma) :
    getVmaByNum k.mm.mmap 0 = some (some 0) := by
  rw [h.mmap]
  simp [Memory.getVmaByNum, getVmaLoop, h.vmId]

/-- The only area overlaps with no other one. -/
theorem OneArea.validate {vma : VmArea} (h : OneArea k vma) (lo hi : Addr) :
    validateOverlapVmArea k.mm.mmap 0 lo hi = 0 := by
  rw [h.mmap]
  simp [validateOverlapVmArea, h.vmId]

/-- The one area is never turned away. -/
theorem OneArea.extends {vma : VmArea} (h : OneArea k vma) {incSz : Addr}
    (hne : incSz ≠ 0) : incVmaLimit k 0 incSz = some (0, k.extend 0 vma incSz) := by
  have harea : k.mm.mmap[0]? = some vma := by
    rw [h.mmap]
    rfl
  apply incVmaLimit_extend hne h.getVmaByNum harea
  rw [h.validate]
  exact Int.lt_irrefl 0

/-- `inc_vma_limit` moves the end of the area and maps the new pages, when there are
frames for all of them. -/
theorem incVmaLimit_eq {vma : VmArea} (h : OneArea k vma) (incSz : Addr) :
    ∃ ret, incVmaLimit k 0 incSz = some (ret, { k with
      mm := { k.mm.mapPages (framePairs k.mram vma.vmEnd (incCount incSz)) with
        mmap := [{ vma with vmEnd := vma.vmEnd + page64AlignSz incSz }] }
      mram := takeFrames k.mram (incCount incSz) }) := by
  by_cases hzero : incSz = 0
  · subst hzero
    refine ⟨-1, ?_⟩
    have halign : page64AlignSz 0 = 0 := by decide
    have hcount : incCount 0 = 0 := by decide
    rw [incVmaLimit, if_pos rfl, halign, hcount]
    simp [framePairs, takeFrames, newPages, Mm.mapPages, ← h.mmap]
  · refine ⟨0, ?_⟩
    rw [h.extends hzero, Krnl.extend, Mm.modifyVma, mapPages_mmap, h.mmap]
    rfl

/-- By how much `__alloc` has the area extended. -/
def growSize (size : Addr) : Addr :=
  page64AlignSz ((incSize size).setWidth 64)

/-- How many pages this is. -/
def growCount (size : Addr) : Nat :=
  incCount ((incSize size).setWidth 64)

/-- The pages that an allocation which finds no free region maps. -/
def growPairs (k : Krnl m) (vma : VmArea) (caller : Caller) (size : Addr) :
    List (Addr × Addr) :=
  if caller.found then framePairs k.mram vma.vmEnd (growCount size) else []

/-- RAM after it. -/
def growMram (k : Krnl m) (caller : Caller) (size : Addr) : Memphy :=
  if caller.found then takeFrames k.mram (growCount size) else k.mram

/-- The end of the area after it. -/
def growEnd (vma : VmArea) (caller : Caller) (size : Addr) : Addr :=
  if caller.found then vma.vmEnd + growSize size else vma.vmEnd

/-- A sign extension is undone by cutting it off. -/
theorem setWidth_signExtend (x : BitVec 32) : (x.signExtend 64).setWidth 32 = x := by
  apply BitVec.eq_of_getLsbD_eq
  intro i hi
  have hi64 : i < 64 := by omega
  simp [BitVec.getElem_signExtend, hi, hi64]

/-- What the system call of `__alloc` does to the memory. -/
theorem sysMemmapInc_eq {vma : VmArea} (h : OneArea k vma) (caller : Caller)
    (size : Addr) :
    ∃ ret, sysMemmapInc k caller (BitVec.ofInt 64 0) ((incSize size).signExtend 64) =
      some (ret, { k with
        mm := { k.mm.mapPages (growPairs k vma caller size) with
          mmap := [{ vma with vmEnd := growEnd vma caller size }] }
        mram := growMram k caller size }) := by
  unfold sysMemmapInc growPairs growEnd growMram
  split_ifs with hfound
  · have hvmaid : ((BitVec.ofInt 64 0).setWidth 32).toInt = 0 := by decide
    obtain ⟨ret, hinc⟩ := incVmaLimit_eq h ((incSize size).setWidth 64)
    rw [hvmaid, setWidth_signExtend, hinc]
    exact ⟨0, rfl⟩
  · refine ⟨-1, ?_⟩
    simp [Mm.mapPages, ← h.mmap]

/-! ## Region identifiers -/

/-- The index of a cell. -/
theorem symIndex_val (i : Fin maxSymtblSz) : symIndex (i : Nat) = some i := by
  rw [symIndex, dif_pos ⟨Int.natCast_nonneg _, i.isLt⟩]
  rfl

/-- An index with a cell is the number of the cell. -/
theorem symIndex_eq_some {rgid : Int} {i : Fin maxSymtblSz}
    (h : symIndex rgid = some i) : rgid = (i : Nat) := by
  unfold symIndex at h
  split_ifs at h with hrange
  obtain rfl := Option.some.inj h
  exact (Int.toNat_of_nonneg hrange.1).symm

/-- Indices of one cell are equal. -/
theorem symIndex_inj {rgid rgid' : Int} {i : Fin maxSymtblSz}
    (h : symIndex rgid = some i) (h' : symIndex rgid' = some i) : rgid = rgid' :=
  (symIndex_eq_some h).trans (symIndex_eq_some h').symm

/-- The indices 0 to 29 have a cell. -/
theorem symIndex_of_range {rgid : Int} (h : 0 ≤ rgid ∧ rgid < 30) :
    ∃ i, symIndex rgid = some i := by
  have hlt : rgid.toNat < maxSymtblSz := by
    simp only [maxSymtblSz]
    omega
  exact ⟨⟨rgid.toNat, hlt⟩, dif_pos ⟨h.1, hlt⟩⟩

/-- An index that is turned away has none. -/
theorem symIndex_of_invalid {rgid : Int} (h : symInvalid rgid = true) :
    symIndex rgid = none := by
  unfold symInvalid at h
  rw [Bool.or_eq_true, decide_eq_true_iff, decide_eq_true_iff] at h
  rw [symIndex, dif_neg]
  omega

/-! ## Calls -/

/-- The region and the offset of a `READ` or a `WRITE`. -/
def MemCall.target : MemCall → Option (Int × Addr)
  | .read rgid offset => some (rgid, offset)
  | .write rgid offset _ => some (rgid, offset)
  | _ => none

/-- The index that an instruction names. -/
def MemCall.rgid : MemCall → Int
  | .alloc _ rgid _ => rgid
  | .free rgid => rgid
  | .read rgid _ => rgid
  | .write rgid _ _ => rgid

/-- A call with a target is a `READ` or a `WRITE`. -/
theorem MemCall.eq_of_target {call : MemCall} {target : Int × Addr}
    (h : call.target = some target) :
    call = .read target.1 target.2 ∨ ∃ value, call = .write target.1 target.2 value := by
  cases call with
  | alloc => cases h
  | free => cases h
  | read =>
      cases h
      exact Or.inl rfl
  | write _ _ value =>
      cases h
      exact Or.inr ⟨value, rfl⟩

/-- `old_sbrk`. -/
def VmArea.oldSbrk (vma : VmArea) : Addr :=
  (vma.sbrk.setWidth 32).signExtend 64

/-- The kernel after an allocation that takes a free region. -/
def Krnl.hit (k : Krnl m) (vma : VmArea) (i : Fin maxSymtblSz) (rg : VmRg)
    (freerg : List VmRg) : Krnl m :=
  { k with mm := { k.mm with
      mmap := [{ vma with vmFreergList := freerg }]
      symrgtbl := Function.update k.mm.symrgtbl i rg } }

/-- The kernel after an allocation that extends the area. -/
def Krnl.grow (k : Krnl m) (vma : VmArea) (caller : Caller) (i : Fin maxSymtblSz)
    (size : Addr) (freerg : List VmRg) : Krnl m :=
  { k with
    mm := { k.mm.mapPages (growPairs k vma caller size) with
      mmap := [{ vma with
        vmEnd := growEnd vma caller size
        sbrk := vma.oldSbrk + size
        vmFreergList := freerg }]
      symrgtbl :=
        Function.update k.mm.symrgtbl i ⟨vma.oldSbrk, vma.oldSbrk + size⟩ }
    mram := growMram k caller size }

/-- The kernel after a region has been freed. -/
def Krnl.freed (k : Krnl m) (vma : VmArea) (i : Fin maxSymtblSz) : Krnl m :=
  { k with mm := { k.mm with
      mmap := [{ vma with vmFreergList := k.mm.symrgtbl i :: vma.vmFreergList }]
      symrgtbl := Function.update k.mm.symrgtbl i ⟨0, 0⟩ } }

/-- The kernel after a byte of RAM has been set. -/
def Krnl.poke (k : Krnl m) (phyaddr : Addr) (value : Byte) : Krnl m :=
  { k with mram := { k.mram with
      storage := Function.update k.mram.storage phyaddr.toNat value } }

/-- What an instruction can do to a memory with one area. -/
inductive MemStep (k : Krnl m) (vma : VmArea) : MemCall → Answer → Krnl m → Prop
  | hit {caller : Caller} {rgid : Int} {size : Addr} {i : Fin maxSymtblSz} {rg : VmRg}
      {freerg : List VmRg} (hindex : symIndex rgid = some i)
      (hget : getFreeVmrgArea vma.vmFreergList (size.setWidth 32) = (some rg, freerg)) :
      MemStep k vma (.alloc caller rgid size) ⟨0, none⟩ (k.hit vma i rg freerg)
  | grow {caller : Caller} {rgid : Int} {size : Addr} {i : Fin maxSymtblSz}
      {freerg : List VmRg} (hindex : symIndex rgid = some i)
      (hget : getFreeVmrgArea vma.vmFreergList (size.setWidth 32) = (none, freerg)) :
      MemStep k vma (.alloc caller rgid size) ⟨0, none⟩
        (k.grow vma caller i size freerg)
  | freed {rgid : Int} {i : Fin maxSymtblSz} (hindex : symIndex rgid = some i)
      (hlive : ¬ (k.mm.symrgtbl i).Empty) :
      MemStep k vma (.free rgid) ⟨0, none⟩ (k.freed vma i)
  | notFreed {rgid : Int}
      (hnot : ∀ i, symIndex rgid = some i → (k.mm.symrgtbl i).Empty) :
      MemStep k vma (.free rgid) ⟨-1, none⟩ k
  | rejected {call : MemCall} {rgid : Int} {offset : Addr}
      (htarget : call.target = some (rgid, offset))
      (haddr : accessAddr k 0 rgid offset = some none) :
      MemStep k vma call ⟨-1, none⟩ k
  | failed {call : MemCall} {rgid : Int} {offset : Addr} {vaddr : BitVec 32}
      {k' : Krnl m} (htarget : call.target = some (rgid, offset))
      (haddr : accessAddr k 0 rgid offset = some (some vaddr))
      (hpage : PageStep k (pagingPgn vaddr) none k') :
      MemStep k vma call ⟨-1, none⟩ k'
  | read {rgid : Int} {offset fpn : Addr} {vaddr : BitVec 32} {k' : Krnl m}
      (haddr : accessAddr k 0 rgid offset = some (some vaddr))
      (hpage : PageStep k (pagingPgn vaddr) (some fpn) k') :
      MemStep k vma (.read rgid offset)
        ⟨0, some (k'.mram.storage (phyAddr fpn (pagingOffst vaddr)).toNat)⟩ k'
  | written {rgid : Int} {offset fpn : Addr} {vaddr : BitVec 32} {value : Byte}
      {k' : Krnl m} (haddr : accessAddr k 0 rgid offset = some (some vaddr))
      (hpage : PageStep k (pagingPgn vaddr) (some fpn) k') :
      MemStep k vma (.write rgid offset value) ⟨0, none⟩
        (k'.poke (phyAddr fpn (pagingOffst vaddr)) value)

/-- An allocation that finds a free region. -/
theorem alloc_eq_hit {vma : VmArea} (harea : OneArea k vma) (caller : Caller)
    {rgid : Int} {size : Addr} {i : Fin maxSymtblSz} (hindex : symIndex rgid = some i)
    {rg : VmRg} {freerg : List VmRg}
    (hget : getFreeVmrgArea vma.vmFreergList (size.setWidth 32) = (some rg, freerg)) :
    alloc k caller 0 rgid size = some (0, rg.rgStart, k.hit vma i rg freerg) := by
  have hvma := harea.getVmaByNum
  rw [harea.mmap] at hvma
  simp only [alloc, harea.mmap, hvma, hindex, List.getElem?_cons_zero, hget]
  simp [Krnl.hit, Mm.modifyVma, Mm.setRg, harea.mmap]

/-- An allocation that finds none. -/
theorem alloc_eq_grow {vma : VmArea} (harea : OneArea k vma) (caller : Caller)
    {rgid : Int} {size : Addr} {i : Fin maxSymtblSz} (hindex : symIndex rgid = some i)
    {freerg : List VmRg}
    (hget : getFreeVmrgArea vma.vmFreergList (size.setWidth 32) = (none, freerg)) :
    alloc k caller 0 rgid size =
      some (0, vma.oldSbrk, k.grow vma caller i size freerg) := by
  have harea' : OneArea
      { k with mm := k.mm.modifyVma 0 fun a => { a with vmFreergList := freerg } }
      { vma with vmFreergList := freerg } :=
    ⟨by simp [Mm.modifyVma, harea.mmap], harea.vmId, harea.random⟩
  obtain ⟨ret, hsys⟩ := sysMemmapInc_eq harea' caller size
  have hvma := harea.getVmaByNum
  rw [harea.mmap] at hvma
  simp only [alloc, harea.mmap, hvma, hindex, List.getElem?_cons_zero, hget, hsys]
  simp [Krnl.grow, growPairs, growEnd, growMram, Mm.modifyVma, Mm.setRg, mapPages_mmap,
    mapPages_frame, harea.mmap, VmArea.oldSbrk]

/-- `__alloc` is one of the steps. -/
theorem alloc_step {vma : VmArea} {caller : Caller} {rgid ret : Int}
    {size addr : Addr} (harea : OneArea k vma)
    (h : alloc k caller 0 rgid size = some (ret, addr, k')) :
    MemStep k vma (.alloc caller rgid size) ⟨ret, none⟩ k' := by
  cases hindex : symIndex rgid with
  | none => simp [alloc, harea.getVmaByNum, hindex] at h
  | some i =>
      cases hget : getFreeVmrgArea vma.vmFreergList (size.setWidth 32) with
      | mk rgnode freerg =>
          cases rgnode with
          | some rg =>
              rw [alloc_eq_hit harea caller hindex hget] at h
              cases h
              exact .hit hindex hget
          | none =>
              rw [alloc_eq_grow harea caller hindex hget] at h
              cases h
              exact .grow hindex hget

/-- `__free` is one of the steps. -/
theorem free_step {vma : VmArea} {rgid ret : Int} (harea : OneArea k vma)
    (h : free k rgid = some (ret, k')) : MemStep k vma (.free rgid) ⟨ret, none⟩ k' := by
  unfold free at h
  split at h
  · rename_i hinvalid
    cases h
    apply MemStep.notFreed
    intro i hi
    rw [symIndex_of_invalid hinvalid] at hi
    cases hi
  · cases hindex : symIndex rgid with
    | none => simp [hindex] at h
    | some i =>
        simp only [hindex] at h
        split at h
        · rename_i hempty
          cases h
          apply MemStep.notFreed
          intro j hj
          rw [hindex] at hj
          cases hj
          exact hempty
        · rename_i hlive
          have hmmap : (k.mm.setRg i ⟨0, 0⟩).mmap = [vma] := harea.mmap
          rw [hmmap] at h
          cases h
          have hrank : ¬ (k.mm.symrgtbl i).rgEnd ≤ (k.mm.symrgtbl i).rgStart := hlive
          convert MemStep.freed hindex hlive using 1
          simp [Krnl.freed, Mm.modifyVma, Mm.setRg, enlistVmFreergList, hrank,
            harea.mmap]

/-- The checks on the one area. -/
theorem accessAddr_eq {vma : VmArea} (harea : OneArea k vma) (rgid : Int) (offset : Addr) :
    accessAddr k 0 rgid offset =
      if symInvalid rgid then some none
      else (symIndex rgid).map fun i =>
        let currg := k.mm.symrgtbl i
        if currg.rgEnd ≤ currg.rgStart then none
        else if currg.rgEnd - currg.rgStart ≤ offset then none
        else some ((currg.rgStart + offset).setWidth 32) := by
  unfold accessAddr
  rw [harea.getVmaByNum]
  simp only [Option.isNone_some, Bool.or_false]
  split_ifs with hinvalid
  · rfl
  · cases symIndex rgid with
    | none => rfl
    | some i =>
        simp only [Option.map_some]
        split_ifs <;> rfl

/-- An access that passes the checks. -/
theorem accessAddr_eq_some {vma : VmArea} (harea : OneArea k vma) {rgid : Int}
    {offset : Addr} {vaddr : BitVec 32}
    (h : accessAddr k 0 rgid offset = some (some vaddr)) :
    ∃ i, symIndex rgid = some i ∧
      offset < (k.mm.symrgtbl i).rgEnd - (k.mm.symrgtbl i).rgStart ∧
      (k.mm.symrgtbl i).rgStart < (k.mm.symrgtbl i).rgEnd ∧
      vaddr = ((k.mm.symrgtbl i).rgStart + offset).setWidth 32 := by
  rw [accessAddr_eq harea] at h
  split at h
  · cases h
  · obtain ⟨i, hindex, haddr⟩ := Option.map_eq_some_iff.mp h
    simp only at haddr
    split_ifs at haddr with hempty hpast
    cases haddr
    exact ⟨i, hindex, BitVec.not_le.mp hpast, BitVec.not_le.mp hempty, rfl⟩

/-- An access to a byte of a region passes the checks. -/
theorem accessAddr_of_has {vma : VmArea} (harea : OneArea k vma) {rgid : Int}
    {i : Fin maxSymtblSz} (hindex : symIndex rgid = some i) {offset : Addr}
    (hlive : (k.mm.symrgtbl i).rgStart < (k.mm.symrgtbl i).rgEnd)
    (hoff : offset < (k.mm.symrgtbl i).rgEnd - (k.mm.symrgtbl i).rgStart) :
    accessAddr k 0 rgid offset =
      some (some (((k.mm.symrgtbl i).rgStart + offset).setWidth 32)) := by
  have hvalid : ¬ symInvalid rgid = true := by
    intro hinvalid
    rw [symIndex_of_invalid hinvalid] at hindex
    cases hindex
  rw [accessAddr_eq harea, if_neg hvalid, hindex, Option.map_some,
    if_neg (BitVec.not_le.mpr hlive), if_neg (BitVec.not_le.mpr hoff)]

/-- An access that the checks reject. -/
theorem accessAddr_eq_none {vma : VmArea} (harea : OneArea k vma) {rgid : Int}
    {offset : Addr} (h : accessAddr k 0 rgid offset = some none) {i : Fin maxSymtblSz}
    (hindex : symIndex rgid = some i) :
    (k.mm.symrgtbl i).Empty ∨
      (k.mm.symrgtbl i).rgEnd - (k.mm.symrgtbl i).rgStart ≤ offset := by
  rw [accessAddr_eq harea] at h
  split at h
  · rename_i hinvalid
    rw [symIndex_of_invalid hinvalid] at hindex
    cases hindex
  · rw [hindex, Option.map_some, Option.some.injEq] at h
    simp only at h
    split_ifs at h with hempty hpast
    · exact Or.inl hempty
    · exact Or.inr hpast

/-- `__read` is one of the steps. -/
theorem read_step {vma : VmArea} {rgid ret : Int} {offset : Addr}
    {data : Option Byte} (harea : OneArea k vma)
    (h : read k 0 rgid offset = some (ret, data, k')) :
    MemStep k vma (.read rgid offset) ⟨ret, data⟩ k' := by
  unfold read at h
  split at h
  · cases h
  · rename_i haddr
    cases h
    exact .rejected rfl haddr
  · rename_i vaddr haddr
    unfold pgGetval at h
    split at h
    · cases h
    · rename_i ret₁ fpn k₁ hget
      rcases pgGetpage_step hget with ⟨rfl, hpage⟩ | ⟨rfl, hpage⟩
      · have hrandom : k₁.mram.rdmflg = true := (harea.page hpage).random
        rw [if_neg (by simp)] at h
        obtain ⟨r, hread, heq⟩ := Option.map_eq_some_iff.mp h
        rw [Memphy.read_random hrandom] at hread
        split_ifs at hread
        cases hread
        cases heq
        exact .read haddr hpage
      · rw [if_pos (by decide)] at h
        cases h
        exact .failed rfl haddr hpage

/-- `__write` is one of the steps. -/
theorem write_step {vma : VmArea} {rgid ret : Int} {offset : Addr} {value : Byte}
    (harea : OneArea k vma) (h : write k 0 rgid offset value = some (ret, k')) :
    MemStep k vma (.write rgid offset value) ⟨ret, none⟩ k' := by
  unfold write at h
  split at h
  · cases h
  · rename_i haddr
    cases h
    exact .rejected rfl haddr
  · rename_i vaddr haddr
    unfold pgSetval at h
    split at h
    · cases h
    · rename_i ret₁ fpn k₁ hget
      rcases pgGetpage_step hget with ⟨rfl, hpage⟩ | ⟨rfl, hpage⟩
      · have hrandom : k₁.mram.rdmflg = true := (harea.page hpage).random
        rw [if_neg (by simp)] at h
        obtain ⟨r, hwrite, heq⟩ := Option.map_eq_some_iff.mp h
        rw [Memphy.write_random hrandom] at hwrite
        split_ifs at hwrite
        cases hwrite
        cases heq
        exact .written haddr hpage
      · rw [if_pos (by decide)] at h
        cases h
        exact .failed rfl haddr hpage

/-- Everything that an instruction can do. -/
theorem run_step {vma : VmArea} {call : MemCall} {a : Answer} (harea : OneArea k vma)
    (h : call.run k = some (a, k')) : MemStep k vma call a k' := by
  cases call with
  | alloc caller rgid size =>
      obtain ⟨⟨ret, addr, k₁⟩, hcall, heq⟩ := Option.map_eq_some_iff.mp h
      cases heq
      exact alloc_step harea hcall
  | free rgid =>
      obtain ⟨⟨ret, k₁⟩, hcall, heq⟩ := Option.map_eq_some_iff.mp h
      cases heq
      exact free_step harea hcall
  | read rgid offset =>
      obtain ⟨⟨ret, data, k₁⟩, hcall, heq⟩ := Option.map_eq_some_iff.mp h
      cases heq
      exact read_step harea hcall
  | write rgid offset value =>
      obtain ⟨⟨ret, k₁⟩, hcall, heq⟩ := Option.map_eq_some_iff.mp h
      cases heq
      exact write_step harea hcall

/-- A growth of the area does not change the bytes of RAM. -/
theorem growMram_frame (k : Krnl m) (caller : Caller) (size : Addr) :
    (growMram k caller size).rdmflg = k.mram.rdmflg ∧
      (growMram k caller size).maxsz = k.mram.maxsz ∧
      (growMram k caller size).storage = k.mram.storage := by
  unfold growMram takeFrames
  split_ifs <;> exact ⟨rfl, rfl, rfl⟩

/-- A growth puts its pages in front of the FIFO list. -/
theorem fifoPgn_grow (k : Krnl m) (vma : VmArea) (caller : Caller) (i : Fin maxSymtblSz)
    (size : Addr) (freerg : List VmRg) :
    (k.grow vma caller i size freerg).mm.fifoPgn =
      ((growPairs k vma caller size).map Prod.fst).reverse ++ k.mm.fifoPgn :=
  (mapPages_frame _ _).2.2.1

/-- A growth enters its pages in the page table. -/
theorem entered_grow (k : Krnl m) (vma : VmArea) (caller : Caller) (i : Fin maxSymtblSz)
    (size : Addr) (freerg : List VmRg) :
    (k.grow vma caller i size freerg).mm.entered =
      ((growPairs k vma caller size).map Prod.fst).reverse ++ k.mm.entered :=
  (mapPages_frame _ _).2.2.2

/-- There is one area after every instruction. -/
theorem MemStep.oneArea {vma : VmArea} {call : MemCall} {a : Answer}
    (hstep : MemStep k vma call a k') (harea : OneArea k vma) :
    ∃ vma', OneArea k' vma' := by
  cases hstep with
  | hit => exact ⟨_, rfl, harea.vmId, harea.random⟩
  | grow => exact ⟨_, rfl, harea.vmId, (growMram_frame _ _ _).1.trans harea.random⟩
  | freed => exact ⟨_, rfl, harea.vmId, harea.random⟩
  | notFreed => exact ⟨vma, harea⟩
  | rejected => exact ⟨vma, harea⟩
  | failed _ _ hpage => exact ⟨vma, harea.page hpage⟩
  | read _ hpage => exact ⟨vma, harea.page hpage⟩
  | written _ hpage =>
      have hafter := harea.page hpage
      exact ⟨vma, hafter.mmap, hafter.vmId, hafter.random⟩

/-- `init_mm` makes one area. -/
theorem oneArea_boot (b : Boot) :
    OneArea (b.krnl : Krnl m) ⟨0, 0, 0, 0, ⟨0, 0⟩ :: b.staleFreerg⟩ :=
  ⟨rfl, rfl, rfl⟩

/-- The invariant rule for runs of instructions. -/
theorem invariant_of_boot {ok : Krnl m → MemCall → Krnl m → Prop} {I : Krnl m → Prop}
    (b : Boot) {es : List (MemCall × Answer)} (hrun : Lts.Run (Stepped ok) b.krnl es k)
    (hinit : I b.krnl)
    (hstep : ∀ k k' vma call a, OneArea k vma → I k → ok k call k' →
      MemStep k vma call a k' → I k') : (∃ vma, OneArea k vma) ∧ I k := by
  apply hrun.invariant
  · exact ⟨⟨_, oneArea_boot b⟩, hinit⟩
  · rintro k e k' ⟨⟨vma, harea⟩, hinv⟩ ⟨hok, hcall⟩
    have hmem := run_step harea hcall
    exact ⟨hmem.oneArea harea, hstep _ _ _ _ _ harea hinv hok hmem⟩

end Memory
end Hdh
