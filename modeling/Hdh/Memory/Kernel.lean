import Hdh.Memory.Memphy
import Hdh.Memory.PageTable
import Hdh.Memory.Region

/-!
# The memory manager

The functions of `mm64.c`, `mm-vm.c`, `sys_mem.c` and `libmem.c` behind the
instructions `ALLOC`, `FREE`, `READ` and `WRITE`, over the one `mm_struct` that
all processes share.  The answer `none` stands for undefined behaviour: an access
past the end of an array or of a device, or through NULL.

`vmap_page_range` maps pages of 4096 bytes, and `pg_getval` and `pg_setval` look
pages of 256 bytes up.

The functions of this file are translated one by one; what they do to a memory
with the one area that `init_mm` creates is stated in the files that follow.
-/

namespace Hdh
namespace Memory

variable {m : Radix.Malloc Nat 0}

/-- `struct vm_area_struct`. -/
structure VmArea where
  vmId : BitVec 64
  vmStart : Addr
  vmEnd : Addr
  sbrk : Addr
  vmFreergList : List VmRg

/-- `struct mm_struct`.  The list `entered` is not in the source: it remembers the
pages that `vmap_page_range` has entered in the page table. -/
structure Mm (m : Radix.Malloc Nat 0) where
  pgd : PageDir m
  mmap : List VmArea
  symrgtbl : SymRgTbl
  fifoPgn : List Addr
  entered : List Addr

/-- The part of `struct krnl_t` that the memory manager uses. -/
structure Krnl (m : Radix.Malloc Nat 0) where
  mm : Mm m
  mram : Memphy
  activeMswp : Memphy

/-- The calling process, and the PIDs in the queues of the scheduler at the time of
the call. -/
structure Caller where
  pid : BitVec 32
  runningList : List (BitVec 32)
  readyQueue : List (BitVec 32)
  mlqReadyQueue : List (List (BitVec 32))
deriving DecidableEq

/-- `PAGING64_PAGESZ`. -/
def page64Sz : Addr := 4096

/-- `PAGING64_PAGE_ALIGNSZ`. -/
def page64AlignSz (sz : Addr) : Addr :=
  (sz + page64Sz - 1) / page64Sz * page64Sz

/-! ## `mm64.c` -/

/-- One turn of the loop of `vmap_page_range`: allocate the levels of the table,
set the entry and enlist the page. -/
def Mm.mapPage (mm : Mm m) (pgn fpn : Addr) : Mm m :=
  { mm with
    pgd := (pteSetFpn
      (mm.pgd.touch (getPdFromPagenum pgn).path (Nat.le_of_eq (PdIndex.length_path _)))
      pgn fpn).2
    fifoPgn := pgn :: mm.fifoPgn
    entered := pgn :: mm.entered }

/-- The loop of `vmap_page_range` from `pgit` on. -/
def vmapLoop (addr : Addr) (pgnum : Nat) : Nat → List Addr → Mm m → Mm m
  | _, [], mm => mm
  | pgit, fpn :: frames, mm =>
      if pgit < pgnum then
        vmapLoop addr pgnum (pgit + 1) frames (mm.mapPage (pageAddr addr pgit >>> 12) fpn)
      else mm

/-- `vmap_page_range`; it always answers 0. -/
def vmapPageRange (mm : Mm m) (addr : Addr) (pgnum : Int) (frames : List Addr) :
    Addr × Mm m :=
  (0, vmapLoop addr pgnum.toNat 0 frames mm)

/-- The loop of `alloc_pages_range`: the return code, the frame list and RAM.  When
no frame is left, the frames obtained so far are put back. -/
def allocLoop : Nat → List Addr → Memphy → Addr × List Addr × Memphy
  | 0, frmLst, mram => (0, frmLst, mram)
  | n + 1, frmLst, mram =>
      match mram.getFreefp with
      | some (fpn, mram) => allocLoop n (fpn :: frmLst) mram
      | none => (-1, [], frmLst.foldl Memphy.putFreefp mram)

/-- `alloc_pages_range` with an empty `*frm_lst`. -/
def allocPagesRange (mram : Memphy) (reqPgnum : Int) : Addr × List Addr × Memphy :=
  allocLoop reqPgnum.toNat [] mram

/-- `vm_map_ram`.  `addr_t` is unsigned, so that `ret_alloc < 0` never holds. -/
def vmMapRam (k : Krnl m) (mapstart : Addr) (incpgnum : Int) : Addr × Krnl m :=
  let (retAlloc, frmLst, mram) := allocPagesRange k.mram incpgnum
  let k := { k with mram := mram }
  if retAlloc < 0 ∧ retAlloc ≠ -3000 then (-1, k)
  else if retAlloc = -3000 then (-1, k)
  else (0, { k with mm := (vmapPageRange k.mm mapstart incpgnum frmLst).2 })

/-! ## `mm-vm.c` -/

/-- The loop of `get_vma_by_num`: the position of the area; `none` when it
dereferences NULL behind the last area. -/
def getVmaLoop (vmaid : Int) : Nat → List VmArea → Option Nat
  | _, [] => none
  | pos, pvma :: rest =>
      if (pvma.vmId.setWidth 32).toInt < vmaid then getVmaLoop vmaid (pos + 1) rest
      else some pos

/-- `get_vma_by_num`; its answer NULL is `some none`. -/
def getVmaByNum (mmap : List VmArea) (vmaid : Int) : Option (Option Nat) :=
  match mmap with
  | [] => some none
  | _ => (getVmaLoop vmaid 0 mmap).map some

/-- `OVERLAP`. -/
def overlap (x1 x2 y1 y2 : Addr) : Bool :=
  decide (x1 < y2) && decide (x2 > y1)

/-- `validate_overlap_vm_area`. -/
def validateOverlapVmArea (mmap : List VmArea) (vmaid : Int)
    (vmastart vmaend : Addr) : Int :=
  if mmap.any fun vma =>
    vma.vmId != BitVec.ofInt 64 vmaid && overlap vmastart vmaend vma.vmStart vma.vmEnd
  then -1 else 0

/-- Change the area at a position of the list. -/
def Mm.modifyVma (mm : Mm m) (pos : Nat) (f : VmArea → VmArea) : Mm m :=
  { mm with mmap := mm.mmap.modify pos f }

/-- `inc_vma_limit`. -/
def incVmaLimit (k : Krnl m) (vmaid : Int) (incSz : Addr) : Option (Int × Krnl m) :=
  if incSz = 0 then some (-1, k)
  else
    let alignedSz := page64AlignSz incSz
    match getVmaByNum k.mm.mmap vmaid with
    | none => none
    | some none => some (-1, k)
    | some (some pos) =>
        match k.mm.mmap[pos]? with
        | none => none
        | some area =>
            let oldVmEnd := area.vmEnd
            let newVmEnd := area.vmEnd + alignedSz
            if validateOverlapVmArea k.mm.mmap vmaid area.vmEnd newVmEnd < 0 then
              some (-1, k)
            else
              let k := { k with
                mm := k.mm.modifyVma pos fun a => { a with vmEnd := newVmEnd } }
              let incnumpage := ((alignedSz / page64Sz).setWidth 32).toInt
              let r := vmMapRam k oldVmEnd incnumpage
              -- the answer is unsigned: the rollback is never reached
              if r.1 < 0 then
                some (-1, { r.2 with
                  mm := r.2.mm.modifyVma pos fun a => { a with vmEnd := oldVmEnd } })
              else some (0, r.2)

/-! ## `sys_mem.c` -/

/-- The search for the calling process in the queues of the scheduler. -/
def Caller.found (caller : Caller) : Bool :=
  caller.runningList.contains caller.pid || caller.readyQueue.contains caller.pid ||
    caller.mlqReadyQueue.any fun q => q.contains caller.pid

/-- `__sys_memmap` with `SYSMEM_INC_OP`.  In `sys_mem.c` the size is passed on as a
32-bit `addr_t`. -/
def sysMemmapInc (k : Krnl m) (caller : Caller) (a2 a3 : BitVec 64) :
    Option (Int × Krnl m) :=
  if caller.found then
    (incVmaLimit k (a2.setWidth 32).toInt ((a3.setWidth 32).setWidth 64)).map
      fun r => (0, r.2)
  else some (-1, k)

/-! ## `libmem.c` -/

/-- The cell of `symrgtbl` at an index; `none` outside of the table. -/
def symIndex (rgid : Int) : Option (Fin maxSymtblSz) :=
  if h : 0 ≤ rgid ∧ rgid.toNat < maxSymtblSz then some ⟨rgid.toNat, h.2⟩ else none

/-- The test of `get_symrg_byid` and `__free`, which admits one index too many. -/
def symInvalid (rgid : Int) : Bool :=
  decide (rgid < 0) || decide (rgid > maxSymtblSz)

/-- `symrgtbl[i] = rg`. -/
def Mm.setRg (mm : Mm m) (i : Fin maxSymtblSz) (rg : VmRg) : Mm m :=
  { mm with symrgtbl := Function.update mm.symrgtbl i rg }

/-- `inc_sz` of `__alloc`. -/
def incSize (size : Addr) : BitVec 32 :=
  (size / page64Sz).setWidth 32 + 1

/-- `__alloc`: the return code, `*alloc_addr` and the kernel.  The answer of the
system call is not looked at. -/
def alloc (k : Krnl m) (caller : Caller) (vmaid rgid : Int) (size : Addr) :
    Option (Int × Addr × Krnl m) :=
  match getVmaByNum k.mm.mmap vmaid, symIndex rgid with
  | some (some pos), some i =>
      match k.mm.mmap[pos]? with
      | none => none
      | some curVma =>
          let got := getFreeVmrgArea curVma.vmFreergList (size.setWidth 32)
          let mm := k.mm.modifyVma pos fun a => { a with vmFreergList := got.2 }
          match got.1 with
          | some rgnode =>
              some (0, rgnode.rgStart, { k with mm := mm.setRg i rgnode })
          | none =>
              let incSz := incSize size
              let oldSbrk := curVma.sbrk.setWidth 32
              (sysMemmapInc { k with mm := mm } caller (BitVec.ofInt 64 vmaid)
                (incSz.signExtend 64)).map fun r =>
                  let start := oldSbrk.signExtend 64
                  let mm := r.2.mm.setRg i ⟨start, start + size⟩
                  (0, start, { r.2 with
                    mm := mm.modifyVma pos fun a => { a with sbrk := start + size } })
  | _, _ => none

/-- `__free`. -/
def free (k : Krnl m) (rgid : Int) : Option (Int × Krnl m) :=
  if symInvalid rgid then some (-1, k)
  else
    match symIndex rgid with
    | none => none
    | some i =>
        let rgnode := k.mm.symrgtbl i
        if rgnode.rgEnd ≤ rgnode.rgStart then some (-1, k)
        else
          let mm := k.mm.setRg i ⟨0, 0⟩
          match mm.mmap with
          | [] => none
          | _ => some (0, { k with mm := mm.modifyVma 0 fun a =>
              { a with vmFreergList := (enlistVmFreergList a.vmFreergList rgnode).2 } })

/-- `find_victim_page`: the last page of the list, and the list without it; the
answer -1 is `none`. -/
def findVictimPage (fifoPgn : List Addr) : Option (Addr × List Addr) :=
  match fifoPgn with
  | [] => none
  | pg :: rest => some ((pg :: rest).getLast (by simp), (pg :: rest).dropLast)

/-- The branch of `pg_getpage` for a page that is not present. -/
def pgFault (k : Krnl m) (pgn : Addr) : Option (Int × Krnl m) :=
  match findVictimPage k.mm.fifoPgn with
  | none => some (-1, k)
  | some (vicpgn, fifoPgn) =>
      let k := { k with mm := { k.mm with fifoPgn := fifoPgn } }
      match k.activeMswp.getFreefp with
      | none => some (-1, k)
      | some (swpfpn, mswp) =>
          let vicPte := pteGetEntry k.mm.pgd vicpgn
          let vicfpn := pagingFpn vicPte
          if pagePresent vicPte = false then
            some (-1, { k with activeMswp := mswp.putFreefp swpfpn })
          else
            match swapCpPage k.mram vicfpn mswp swpfpn with
            | none => none
            | some (ret, mram, mswp) =>
                let k := { k with mram := mram, activeMswp := mswp }
                if ret ≠ 0 then some (-1, { k with activeMswp := mswp.putFreefp swpfpn })
                else
                  let pgd := (pteSetSwap k.mm.pgd vicpgn 0 swpfpn).2
                  let r := pteSetFpn pgd pgn vicfpn
                  if r.1 ≠ 0 then
                    some (-1, { k with
                      mm := { k.mm with pgd := (pteSetFpn r.2 vicpgn vicfpn).2 }
                      activeMswp := mswp.putFreefp swpfpn })
                  else
                    some (0, { k with
                      mm := { k.mm with pgd := r.2, fifoPgn := pgn :: k.mm.fifoPgn } })

/-- `pg_getpage`: the return code, `*fpn` and the kernel. -/
def pgGetpage (k : Krnl m) (pgn : Addr) : Option (Int × Addr × Krnl m) :=
  let r :=
    if pagePresent (pteGetEntry k.mm.pgd pgn) then some (0, k) else pgFault k pgn
  r.map fun r =>
    if r.1 ≠ 0 then (-1, 0, r.2)
    else
      let pte := pteGetEntry r.2.mm.pgd pgn
      (if pagePresent pte then 0 else -1, pagingFpn pte, r.2)

/-- `PAGING_PGN` of an `int`. -/
def pagingPgn (addr : BitVec 32) : Addr :=
  (getVal addr (genmask 21 8) 8).setWidth 64

/-- `PAGING_OFFST` of an `int`. -/
def pagingOffst (addr : BitVec 32) : Addr :=
  (getVal addr (genmask 7 0) 0).setWidth 64

/-- The physical address of a byte of a frame. -/
def phyAddr (fpn off : Addr) : Addr :=
  (fpn <<< 8) + off

/-- `pg_getval`: the return code, the byte if one is assigned to `*data`, and the
kernel. -/
def pgGetval (k : Krnl m) (addr : BitVec 32) : Option (Int × Option Byte × Krnl m) :=
  match pgGetpage k (pagingPgn addr) with
  | none => none
  | some (ret, fpn, k) =>
      if ret ≠ 0 then some (-1, none, k)
      else
        (k.mram.read (phyAddr fpn (pagingOffst addr))).map fun r =>
          (if r.1 ≠ 0 then -1 else 0, r.2.1, { k with mram := r.2.2 })

/-- `pg_setval`. -/
def pgSetval (k : Krnl m) (addr : BitVec 32) (value : Byte) : Option (Int × Krnl m) :=
  match pgGetpage k (pagingPgn addr) with
  | none => none
  | some (ret, fpn, k) =>
      if ret ≠ 0 then some (-1, k)
      else
        (k.mram.write (phyAddr fpn (pagingOffst addr)) value).map fun r =>
          (if r.1 ≠ 0 then -1 else 0, { k with mram := r.2 })

/-- The checks of `__read` and `__write`: the virtual address, as it is passed on as
an `int`; `some none` when the call answers -1. -/
def accessAddr (k : Krnl m) (vmaid rgid : Int) (offset : Addr) :
    Option (Option (BitVec 32)) :=
  match getVmaByNum k.mm.mmap vmaid with
  | none => none
  | some curVma =>
      if symInvalid rgid || curVma.isNone then some none
      else
        match symIndex rgid with
        | none => none
        | some i =>
            let currg := k.mm.symrgtbl i
            if currg.rgEnd ≤ currg.rgStart then some none
            else if currg.rgEnd - currg.rgStart ≤ offset then some none
            else some (some ((currg.rgStart + offset).setWidth 32))

/-- `__read`. -/
def read (k : Krnl m) (vmaid rgid : Int) (offset : Addr) :
    Option (Int × Option Byte × Krnl m) :=
  match accessAddr k vmaid rgid offset with
  | none => none
  | some none => some (-1, none, k)
  | some (some vaddr) => pgGetval k vaddr

/-- `__write`. -/
def write (k : Krnl m) (vmaid rgid : Int) (offset : Addr) (value : Byte) :
    Option (Int × Krnl m) :=
  match accessAddr k vmaid rgid offset with
  | none => none
  | some none => some (-1, k)
  | some (some vaddr) => pgSetval k vaddr value

/-! ## Initialisation -/

/-- `init_mm`.  The first region is enlisted on a `vm_freerg_list` that has not been
assigned; `stale` is what is found there. -/
def initMm (stale : List VmRg) : Mm m where
  pgd := Radix.Table.empty
  mmap := [{ vmId := 0, vmStart := 0, vmEnd := 0, sbrk := 0,
             vmFreergList := ⟨0, 0⟩ :: stale }]
  symrgtbl := fun _ => ⟨0, 0⟩
  fifoPgn := []
  entered := []

/-- What the configuration says, and what the initialisation finds in fields that it
does not assign.  The sizes are `int`s. -/
structure Boot where
  memramsz : Nat
  memswpsz : Nat
  memramsz_lt : memramsz < 2 ^ 31
  memswpsz_lt : memswpsz < 2 ^ 31
  staleFreerg : List VmRg
  staleMram : List Addr
  staleMswp : List Addr

/-- The kernel after the initialisation in `main`, with `rdmflag` 1. -/
def Boot.krnl (b : Boot) : Krnl m where
  mm := initMm b.staleFreerg
  mram := Memphy.initMemphy b.memramsz true b.staleMram
  activeMswp := Memphy.initMemphy b.memswpsz true b.staleMswp

/-! ## Calls -/

/-- The memory instructions, with the caller of an `ALLOC`. -/
inductive MemCall
  | alloc (caller : Caller) (rgid : Int) (size : Addr)
  | free (rgid : Int)
  | read (rgid : Int) (offset : Addr)
  | write (rgid : Int) (offset : Addr) (value : Byte)
deriving DecidableEq

/-- What an instruction gives back: the return code, and the byte of a `READ`. -/
structure Answer where
  stat : Int
  data : Option Byte
deriving DecidableEq

/-- Carry out one instruction on area 0. -/
def MemCall.run (k : Krnl m) : MemCall → Option (Answer × Krnl m)
  | .alloc caller rgid size =>
      (Memory.alloc k caller 0 rgid size).map fun r => (⟨r.1, none⟩, r.2.2)
  | .free rgid => (Memory.free k rgid).map fun r => (⟨r.1, none⟩, r.2)
  | .read rgid offset =>
      (Memory.read k 0 rgid offset).map fun r => (⟨r.1, r.2.1⟩, r.2.2)
  | .write rgid offset value =>
      (Memory.write k 0 rgid offset value).map fun r => (⟨r.1, none⟩, r.2)

/-- An instruction and its answer lead from one kernel to the next, and meet a
condition on the two. -/
def Stepped (ok : Krnl m → MemCall → Krnl m → Prop) (k : Krnl m)
    (e : MemCall × Answer) (k' : Krnl m) : Prop :=
  ok k e.1 k' ∧ e.1.run k = some (e.2, k')

end Memory
end Hdh
