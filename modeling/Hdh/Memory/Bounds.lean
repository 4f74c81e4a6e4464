import Hdh.Memory.PageFault
import Hdh.Memory.Refinement

/-!
# Accesses to the devices

`MEMPHY_read` and `MEMPHY_write` check no address: an access is inside of its device
when all frame numbers are those of frames that the device has.  The frame number that is
read from the entry of a page that is swapped out is not.

Main results:

- Theorem `run_isSome_iff`: a `READ` or a `WRITE` is defined exactly when all its accesses
  are inside of the devices.
- Theorem `Bounded.accesses_iff`: when this is the case, as long as the free frames and
  the frames of the resident pages are inside.
- Theorem `accesses_inside`: the same in all runs that keep to it.
-/

namespace Hdh
namespace Memory

variable {m : Radix.Malloc Nat 0} {k k' : Krnl m} {vma : VmArea}

/-! ## The addresses -/

/-- The devices that the memory manager uses. -/
inductive Device
  | mram
  | activeMswp
deriving DecidableEq

def Krnl.device (k : Krnl m) : Device → Memphy
  | .mram => k.mram
  | .activeMswp => k.activeMswp

/-- An address that is passed to `MEMPHY_read` or `MEMPHY_write`. -/
structure DevAccess where
  device : Device
  addr : Addr
deriving DecidableEq

/-- The address is smaller than the `maxsz` of the device. -/
def DevAccess.Inside (k : Krnl m) (a : DevAccess) : Prop :=
  a.addr.toNat < (k.device a.device).maxsz

/-- The addresses of `__swap_cp_page`, from RAM to the swap device. -/
def swapCpAccesses (srcfpn dstfpn : Addr) : List DevAccess :=
  (List.range pageSz).flatMap fun cellidx =>
    [⟨.mram, cellAddr srcfpn cellidx⟩, ⟨.activeMswp, cellAddr dstfpn cellidx⟩]

/-- The frames of the page copy that `pg_getpage` makes. -/
def pgGetpageCopy (k : Krnl m) (pgn : Addr) : Option (Addr × Addr) :=
  if pagePresent (pteGetEntry k.mm.pgd pgn) then none
  else
    match findVictimPage k.mm.fifoPgn, k.activeMswp.getFreefp with
    | some (vicpgn, _), some (swpfpn, _) =>
        let vicPte := pteGetEntry k.mm.pgd vicpgn
        if pagePresent vicPte then some (pagingFpn vicPte, swpfpn) else none
    | _, _ => none

/-- The addresses of `pg_getval` and `pg_setval`: those of the page copy, if there is one,
and that of the byte. -/
def pgAccesses (k : Krnl m) (vaddr : BitVec 32) : List DevAccess :=
  let off := pagingOffst vaddr
  let pte := pteGetEntry k.mm.pgd (pagingPgn vaddr)
  match pgGetpageCopy k (pagingPgn vaddr) with
  | some (vicfpn, swpfpn) => swapCpAccesses vicfpn swpfpn ++ [⟨.mram, phyAddr vicfpn off⟩]
  | none => if pagePresent pte then [⟨.mram, phyAddr (pagingFpn pte) off⟩] else []

/-- The addresses of an instruction. -/
def MemCall.accesses (k : Krnl m) (call : MemCall) : List DevAccess :=
  match call.vaddr k with
  | some vaddr => pgAccesses k vaddr
  | none => []

/-- A page that is present is accessed in its frame. -/
theorem pgAccesses_present {vaddr : BitVec 32}
    (hpresent : pagePresent (pteGetEntry k.mm.pgd (pagingPgn vaddr)) = true) :
    pgAccesses k vaddr =
      [⟨.mram, phyAddr (pagingFpn (pteGetEntry k.mm.pgd (pagingPgn vaddr)))
        (pagingOffst vaddr)⟩] := by
  simp [pgAccesses, pgGetpageCopy, hpresent]

/-- A fault without a victim accesses nothing. -/
theorem pgAccesses_noVictim {vaddr : BitVec 32}
    (habsent : pagePresent (pteGetEntry k.mm.pgd (pagingPgn vaddr)) = false)
    (hfifo : k.mm.fifoPgn = []) : pgAccesses k vaddr = [] := by
  simp [pgAccesses, pgGetpageCopy, habsent, hfifo, findVictimPage]

/-- Nor does one whose victim cannot be evicted. -/
theorem pgAccesses_stuck {vaddr : BitVec 32} {vicpgn : Addr} {fifoPgn : List Addr}
    (habsent : pagePresent (pteGetEntry k.mm.pgd (pagingPgn vaddr)) = false)
    (hfifo : k.mm.fifoPgn = fifoPgn ++ [vicpgn]) (hvictim : ¬ Evictable k vicpgn) :
    pgAccesses k vaddr = [] := by
  have hcopy : pgGetpageCopy k (pagingPgn vaddr) = none := by
    rw [pgGetpageCopy, habsent, hfifo, findVictimPage_append]
    cases hfree : k.activeMswp.freeFpList with
    | nil => simp [Memphy.getFreefp, hfree]
    | cons swpfpn rest =>
        have hnot : pagePresent (pteGetEntry k.mm.pgd vicpgn) = false := by
          simpa [Evictable, hfree] using hvictim
        simp [Memphy.getFreefp, hfree, hnot]
  simp [pgAccesses, hcopy, habsent]

/-- An eviction copies the frame of the victim, and then accesses it. -/
theorem pgAccesses_victim {vaddr : BitVec 32} {vicpgn swpfpn : Addr}
    {fifoPgn rest : List Addr}
    (habsent : pagePresent (pteGetEntry k.mm.pgd (pagingPgn vaddr)) = false)
    (hfifo : k.mm.fifoPgn = fifoPgn ++ [vicpgn])
    (hvictim : pagePresent (pteGetEntry k.mm.pgd vicpgn) = true)
    (hfree : k.activeMswp.freeFpList = swpfpn :: rest) :
    pgAccesses k vaddr =
      swapCpAccesses (pagingFpn (pteGetEntry k.mm.pgd vicpgn)) swpfpn ++
        [⟨.mram, phyAddr (pagingFpn (pteGetEntry k.mm.pgd vicpgn)) (pagingOffst vaddr)⟩] := by
  simp [pgAccesses, pgGetpageCopy, habsent, hfifo, findVictimPage_append,
    Memphy.getFreefp, hfree, hvictim]

/-- A copy is inside when all its cells are. -/
theorem swapCpAccesses_inside (srcfpn dstfpn : Addr) :
    (∀ a ∈ swapCpAccesses srcfpn dstfpn, a.Inside k) ↔
      ∀ cellidx < pageSz, (cellAddr srcfpn cellidx).toNat < k.mram.maxsz ∧
        (cellAddr dstfpn cellidx).toNat < k.activeMswp.maxsz := by
  constructor
  · intro h cellidx hcell
    have hmem : ∀ a ∈ [⟨.mram, cellAddr srcfpn cellidx⟩,
        ⟨.activeMswp, cellAddr dstfpn cellidx⟩], DevAccess.Inside k a := fun a ha =>
      h a (List.mem_flatMap.mpr ⟨cellidx, List.mem_range.mpr hcell, ha⟩)
    have hsrc := hmem _ (List.mem_cons_self ..)
    have hdst := hmem _ (List.mem_cons_of_mem _ (List.mem_cons_self ..))
    exact ⟨hsrc, hdst⟩
  · intro h a ha
    obtain ⟨cellidx, hcell, hmem⟩ := List.mem_flatMap.mp ha
    have hin := h cellidx (List.mem_range.mp hcell)
    rcases List.mem_pair.mp hmem with rfl | rfl
    · exact hin.1
    · exact hin.2

/-! ## Definedness -/

/-- What a page access does for `pg_getval` and `pg_setval`: it fails without an access,
it answers the frame of the byte, or its page copy is not defined. -/
theorem pgGetpage_accesses (hmram : k.mram.rdmflg = true)
    (hmswp : k.activeMswp.rdmflg = true) (vaddr : BitVec 32) :
    (∃ k', pgGetpage k (pagingPgn vaddr) = some (-1, 0, k') ∧ pgAccesses k vaddr = []) ∨
    (∃ fpn k', pgGetpage k (pagingPgn vaddr) = some (0, fpn, k') ∧ k'.mram = k.mram ∧
      ((∀ a ∈ pgAccesses k vaddr, a.Inside k) ↔
        (phyAddr fpn (pagingOffst vaddr)).toNat < k.mram.maxsz)) ∨
    (pgGetpage k (pagingPgn vaddr) = none ∧ ¬ ∀ a ∈ pgAccesses k vaddr, a.Inside k) := by
  cases pageFound k (pagingPgn vaddr) with
  | present hpresent =>
      refine Or.inr (Or.inl ⟨_, k, pgGetpage_present hpresent, rfl, ?_⟩)
      rw [pgAccesses_present hpresent, List.forall_mem_singleton]
      rfl
  | noVictim habsent hfifo =>
      exact Or.inl ⟨k, pgGetpage_noVictim habsent hfifo, pgAccesses_noVictim habsent hfifo⟩
  | stuck habsent hfifo hvictim =>
      exact Or.inl ⟨_, pgGetpage_stuck habsent hfifo hvictim,
        pgAccesses_stuck habsent hfifo hvictim⟩
  | @victim vicpgn swpfpn fifoPgn rest habsent hfifo hvictim hfree =>
      have hget := pgGetpage_evict habsent hfifo hvictim hfree
      have hdst : ({ k.activeMswp with freeFpList := rest } : Memphy).rdmflg = true := hmswp
      have hcopy := swapCpPage_isSome hmram hdst
        (pagingFpn (pteGetEntry k.mm.pgd vicpgn)) swpfpn
      rw [← swapCpAccesses_inside (k := k)] at hcopy
      rw [pgAccesses_victim habsent hfifo hvictim hfree, List.forall_mem_append,
        List.forall_mem_singleton, ← hcopy]
      cases hres : swapCpPage k.mram (pagingFpn (pteGetEntry k.mm.pgd vicpgn))
          { k.activeMswp with freeFpList := rest } swpfpn with
      | none =>
          rw [hres] at hget
          exact Or.inr (Or.inr ⟨hget, fun h => Bool.false_ne_true h.1⟩)
      | some r =>
          rw [hres] at hget
          exact Or.inr (Or.inl ⟨_, _, hget, rfl, and_iff_right rfl⟩)

/-- A read of a byte is possible when its accesses are inside of the devices. -/
theorem pgGetval_isSome_iff (hmram : k.mram.rdmflg = true)
    (hmswp : k.activeMswp.rdmflg = true) (vaddr : BitVec 32) :
    (pgGetval k vaddr).isSome ↔ ∀ a ∈ pgAccesses k vaddr, a.Inside k := by
  rcases pgGetpage_accesses hmram hmswp vaddr with
    ⟨k', hget, hnone⟩ | ⟨fpn, k', hget, hsame, hin⟩ | ⟨hget, hout⟩
  · simp [pgGetval, hget, hnone]
  · rw [hin]
    simp only [pgGetval, hget, hsame, Memphy.read_random hmram]
    split_ifs <;> simp_all
  · simp only [pgGetval, hget, hout]
    simp

/-- So is a write. -/
theorem pgSetval_isSome_iff (hmram : k.mram.rdmflg = true)
    (hmswp : k.activeMswp.rdmflg = true) (vaddr : BitVec 32) (value : Byte) :
    (pgSetval k vaddr value).isSome ↔ ∀ a ∈ pgAccesses k vaddr, a.Inside k := by
  rcases pgGetpage_accesses hmram hmswp vaddr with
    ⟨k', hget, hnone⟩ | ⟨fpn, k', hget, hsame, hin⟩ | ⟨hget, hout⟩
  · simp [pgSetval, hget, hnone]
  · rw [hin]
    simp only [pgSetval, hget, hsame, Memphy.write_random hmram]
    split_ifs <;> simp_all
  · simp only [pgSetval, hget, hout]
    simp

/-- A `READ` or a `WRITE` that passes the checks is defined if and only if all its
accesses are inside of the devices. -/
theorem run_isSome_iff (hmram : k.mram.rdmflg = true) (hmswp : k.activeMswp.rdmflg = true)
    {call : MemCall} {vaddr : BitVec 32} (hvaddr : call.vaddr k = some vaddr) :
    (call.run k).isSome ↔ ∀ a ∈ call.accesses k, a.Inside k := by
  obtain ⟨target, htarget, hjoin⟩ := Option.bind_eq_some_iff.mp hvaddr
  have haddr : accessAddr k 0 target.1 target.2 = some (some vaddr) :=
    Option.join_eq_some_iff.mp hjoin
  rw [MemCall.accesses, hvaddr]
  rcases call.eq_of_target htarget with rfl | ⟨value, rfl⟩
  · rw [MemCall.run, Option.isSome_map, read, haddr]
    exact pgGetval_isSome_iff hmram hmswp vaddr
  · rw [MemCall.run, Option.isSome_map, write, haddr]
    exact pgSetval_isSome_iff hmram hmswp vaddr value

/-! ## Bounds -/

/-- The free frames and the frames of the resident pages are inside of their devices. -/
structure Bounded (k : Krnl m) : Prop where
  mramFree : ∀ fpn ∈ k.mram.freeFpList, k.mram.HasFrame fpn
  mswpFree : ∀ swpfpn ∈ k.activeMswp.freeFpList, k.activeMswp.HasFrame swpfpn
  resident : ∀ key fpn, views k.mm.pgd key = .resident fpn → k.mram.HasFrame fpn
  setBySwap : SetBySwap k.mm.pgd
  mswp_lt : k.activeMswp.maxsz < 2 ^ 31

/-- The frame number that is read for a page that is swapped out, with the offset of the
byte, is inside of RAM. -/
def SwappedInside (k : Krnl m) (pgn : Addr) (off : Nat) : Prop :=
  ∀ swpoff ∈ (views k.mm.pgd (pageKey pgn)).slot,
    (aliasFpn swpoff).toNat * 256 + off < k.mram.maxsz

/-- The frame of a victim that is evicted for a page is inside of RAM. -/
def VictimInside (k : Krnl m) (pgn : Addr) : Prop :=
  pagePresent (pteGetEntry k.mm.pgd pgn) = false → k.activeMswp.freeFpList ≠ [] →
    ∀ vicpgn ∈ k.mm.fifoPgn.getLast?, SwappedInside k vicpgn 255

/-- An instruction accesses a page that is swapped out, or evicts one, only if the frame
number that is read for it is inside of RAM. -/
def AliasInside (k : Krnl m) (call : MemCall) : Prop :=
  ∀ vaddr ∈ call.vaddr k, SwappedInside k (pagingPgn vaddr) (vaddr.toNat % 256) ∧
    VictimInside k (pagingPgn vaddr)

/-- The frame number that is read for a page that is present. -/
theorem Bounded.frame_iff (h : Bounded k) {p : Addr} {off : Nat} (hoff : off < 256)
    (hpresent : pagePresent (pteGetEntry k.mm.pgd p) = true) :
    (pagingFpn (pteGetEntry k.mm.pgd p)).toNat * 256 + off < k.mram.maxsz ↔
      SwappedInside k p off := by
  cases hswapped : pageSwapped (pteGetEntry k.mm.pgd p) with
  | true =>
      obtain ⟨swpoff, pte, hentry⟩ := h.setBySwap p hswapped
      have hslot : (views k.mm.pgd (pageKey p)).slot = some (swapSlot swpoff) := by
        rw [views_pageKey, hentry, pageView_setSwap]
        rfl
      rw [SwappedInside, hslot, hentry, pagingFpn_setSwap, ← aliasFpn_swapSlot]
      simp
  | false =>
      have hview : views k.mm.pgd (pageKey p) =
          .resident (pagingFpn (pteGetEntry k.mm.pgd p)) := by
        rw [views_pageKey, pageView, hpresent, hswapped]
        rfl
      have hframe := Memphy.hasFrame_iff.mp (h.resident _ _ hview)
      refine iff_of_true (by omega) ?_
      rw [SwappedInside, hview]
      simp [PageView.slot]

/-- A page that is not present has no frame that could be read. -/
theorem swappedInside_of_absent {p : Addr} (off : Nat)
    (habsent : pagePresent (pteGetEntry k.mm.pgd p) = false) : SwappedInside k p off := by
  rw [SwappedInside, (views_eq_absent_iff _ _).mpr habsent]
  simp [PageView.slot]

/-- Nothing is evicted when the victim cannot be. -/
theorem victimInside_of_stuck {pgn vicpgn : Addr} {fifoPgn : List Addr}
    (hfifo : k.mm.fifoPgn = fifoPgn ++ [vicpgn]) (hvictim : ¬ Evictable k vicpgn) :
    VictimInside k pgn := by
  intro _ hfree p hp
  have hlast : p = vicpgn := by simpa [hfifo, eq_comm] using hp
  rw [hlast]
  exact swappedInside_of_absent _ ((not_evictable_iff.mp hvictim).resolve_left hfree)

/-- The frame of the victim is inside when its last byte is. -/
theorem victimInside_iff {pgn vicpgn swpfpn : Addr} {fifoPgn rest : List Addr}
    (habsent : pagePresent (pteGetEntry k.mm.pgd pgn) = false)
    (hfifo : k.mm.fifoPgn = fifoPgn ++ [vicpgn])
    (hfree : k.activeMswp.freeFpList = swpfpn :: rest) :
    VictimInside k pgn ↔ SwappedInside k vicpgn 255 := by
  simp [VictimInside, habsent, hfree, hfifo]

/-- The addresses of a page copy are inside of the devices when the frames are. -/
theorem swapCpAccesses_inside_iff {vicfpn swpfpn : Addr} (hfits : FpnFits vicfpn)
    (hswap : k.activeMswp.HasFrame swpfpn) (hmax : k.activeMswp.maxsz < 2 ^ 31) :
    (∀ a ∈ swapCpAccesses vicfpn swpfpn, a.Inside k) ↔
      vicfpn.toNat * 256 + 255 < k.mram.maxsz := by
  have hswp := Memphy.hasFrame_iff.mp hswap
  have hvic55 : vicfpn.toNat < 2 ^ 55 := Nat.lt_of_lt_of_le hfits (by decide)
  rw [swapCpAccesses_inside]
  constructor
  · intro h
    have hlast := (h 255 (by decide)).1
    rwa [cellAddr_toNat hvic55 (by decide)] at hlast
  · intro hvic cellidx hcell
    rw [cellAddr_toNat hvic55 hcell, cellAddr_toNat (by omega) hcell]
    unfold pageSz at hcell
    omega

/-- Which accesses are inside of the devices. -/
theorem Bounded.accesses_iff (h : Bounded k) (call : MemCall) :
    (∀ a ∈ call.accesses k, a.Inside k) ↔ AliasInside k call := by
  unfold MemCall.accesses AliasInside
  cases call.vaddr k with
  | none => simp
  | some vaddr =>
      simp only [Option.mem_some_iff, forall_eq']
      have hoff : vaddr.toNat % 256 < 256 := Nat.mod_lt _ (by decide)
      cases pageFound k (pagingPgn vaddr) with
      | present hpresent =>
          rw [pgAccesses_present hpresent, List.forall_mem_singleton, DevAccess.Inside,
            phyAddr_toNat (pagingFpn_fits _), ← h.frame_iff hoff hpresent]
          simp [VictimInside, hpresent, Krnl.device]
      | noVictim habsent hfifo =>
          rw [pgAccesses_noVictim habsent hfifo]
          simp [VictimInside, hfifo, swappedInside_of_absent _ habsent]
      | stuck habsent hfifo hvictim =>
          rw [pgAccesses_stuck habsent hfifo hvictim]
          exact iff_of_true (by simp) ⟨swappedInside_of_absent _ habsent,
            victimInside_of_stuck hfifo hvictim⟩
      | @victim vicpgn swpfpn fifoPgn rest habsent hfifo hvictim hfree =>
          have hfits := pagingFpn_fits (pteGetEntry k.mm.pgd vicpgn)
          have hswap := h.mswpFree swpfpn (by rw [hfree]; exact List.mem_cons_self ..)
          rw [pgAccesses_victim habsent hfifo hvictim hfree, List.forall_mem_append,
            List.forall_mem_singleton, swapCpAccesses_inside_iff hfits hswap h.mswp_lt,
            DevAccess.Inside, phyAddr_toNat hfits, victimInside_iff habsent hfifo hfree,
            ← h.frame_iff (by decide) hvictim, Krnl.device]
          constructor
          · exact fun hin => ⟨swappedInside_of_absent _ habsent, hin.1⟩
          · exact fun hin => ⟨hin.2, by omega⟩

/-! ## What each step does -/

/-- A page access keeps the frames inside, when the frame of its victim is. -/
theorem Bounded.page (h : Bounded k) {pgn : Addr} {res : Option Addr}
    (hpage : PageStep k pgn res k') (hinside : VictimInside k pgn) : Bounded k' := by
  cases hpage with
  | present => exact h
  | noVictim => exact h
  | dropped => exact ⟨h.mramFree, h.mswpFree, h.resident, h.setBySwap, h.mswp_lt⟩
  | @evicted vicpgn swpfpn fifoPgn rest mswp habsent hfifo hvictim hfree hrest hmax =>
      have hvicfpn : k.mram.HasFrame (pagingFpn (pteGetEntry k.mm.pgd vicpgn)) := by
        rw [Memphy.hasFrame_iff, h.frame_iff (by decide) hvictim]
        exact (victimInside_iff habsent hfifo hfree).mp hinside
      constructor
      · exact h.mramFree
      · intro fpn hmem
        rw [Memphy.hasFrame_congr hmax]
        rw [hrest] at hmem
        exact h.mswpFree fpn (by rw [hfree]; exact List.mem_cons_of_mem _ hmem)
      · intro key fpn hres
        simp only at hres
        rw [views_evict _ _ _ _ (pagingFpn_fits _)] at hres
        by_cases hkey : key = pageKey pgn
        · rw [hkey, Function.update_self] at hres
          cases hres
          exact hvicfpn
        rw [Function.update_of_ne hkey] at hres
        by_cases hvic : key = pageKey vicpgn
        · rw [hvic, Function.update_self] at hres
          cases hres
        · rw [Function.update_of_ne hvic] at hres
          exact h.resident key fpn hres
      · exact (h.setBySwap.setSwap _ _).setFpn _ _
      · exact hmax.trans_lt h.mswp_lt

/-- Growth takes frames that are inside. -/
theorem Bounded.grow (h : Bounded k) (caller : Caller) (i : Fin maxSymtblSz) (size : Addr)
    (freerg : List VmRg) : Bounded (k.grow vma caller i size freerg) := by
  have hperm := (growPairs_spec k vma caller size).2
  have hdom : (k.grow vma caller i size freerg).mram.HasFrame = k.mram.HasFrame :=
    Memphy.hasFrame_congr (growMram_frame k caller size).2.1
  constructor
  · intro fpn hmem
    rw [hdom]
    exact h.mramFree fpn (hperm.mem_iff.mpr (List.mem_append_right _ hmem))
  · exact h.mswpFree
  · intro key fpn hres
    rw [hdom]
    by_cases hkey : key ∈ (growPairs k vma caller size).map fun pf => pageKey pf.1
    · obtain ⟨pf, hpf, rfl⟩ := List.mem_map.mp hkey
      rw [views_grow_of_mem i freerg hpf] at hres
      cases hres
      have hfree := h.mramFree pf.2
        (hperm.mem_iff.mpr (List.mem_append_left _ (List.mem_map_of_mem hpf)))
      -- the field may hold a part of the number only
      have hle : (fpnField pf.2).toNat ≤ pf.2.toNat := by
        rw [toNat_fpnField]
        exact Nat.mod_le _ _
      exact Nat.lt_of_le_of_lt hle hfree
    · rw [views_grow_of_not_mem i freerg hkey] at hres
      exact h.resident key fpn hres
  · exact h.setBySwap.mapPages _
  · rw [show (k.grow vma caller i size freerg).activeMswp = k.activeMswp from rfl]
    exact h.mswp_lt

/-- An instruction keeps the frames inside, when the frame of its victim is. -/
theorem Bounded.step (h : Bounded k) {call : MemCall} {a : Answer}
    (hstep : MemStep k vma call a k') (halias : AliasInside k call) : Bounded k' := by
  cases hstep with
  | hit => exact ⟨h.mramFree, h.mswpFree, h.resident, h.setBySwap, h.mswp_lt⟩
  | grow => exact h.grow _ _ _ _
  | freed => exact ⟨h.mramFree, h.mswpFree, h.resident, h.setBySwap, h.mswp_lt⟩
  | notFreed => exact h
  | rejected => exact h
  | failed htarget haddr hpage =>
      exact h.page hpage (halias _ (MemCall.vaddr_eq htarget haddr)).2
  | read haddr hpage => exact h.page hpage (halias _ (MemCall.vaddr_eq rfl haddr)).2
  | written haddr hpage =>
      have hpages := h.page hpage (halias _ (MemCall.vaddr_eq rfl haddr)).2
      exact ⟨hpages.mramFree, hpages.mswpFree, hpages.resident, hpages.setBySwap,
        hpages.mswp_lt⟩

/-! ## Runs -/

/-- All frames are inside of the devices at the beginning. -/
theorem bounded_boot (b : Boot) (hmram : 2 * pageSz ≤ b.memramsz ∨ b.staleMram = [])
    (hmswp : 2 * pageSz ≤ b.memswpsz ∨ b.staleMswp = []) : Bounded (b.krnl : Krnl m) := by
  constructor
  · exact (owned_format b.memramsz_lt hmram).free_dom
  · exact (owned_format b.memswpsz_lt hmswp).free_dom
  · intro key fpn hres
    rw [views_boot] at hres
    cases hres
  · exact setBySwap_boot b
  · exact b.memswpsz_lt

/-- All accesses are inside of the devices, as long as the frame numbers that are read for
pages that are swapped out are inside of RAM; the next instruction breaks this if and only
if it has such a page read or evicted with a frame number that is not. -/
theorem accesses_inside (b : Boot) (hmram : 2 * pageSz ≤ b.memramsz ∨ b.staleMram = [])
    (hmswp : 2 * pageSz ≤ b.memswpsz ∨ b.staleMswp = [])
    {es : List (MemCall × Answer)} {k : Krnl m}
    (hrun : Lts.Run (Stepped fun k call _ => AliasInside k call) b.krnl es k)
    (call : MemCall) : (∀ a ∈ call.accesses k, a.Inside k) ↔ AliasInside k call := by
  have hinv : (∃ vma, OneArea k vma) ∧ Bounded k := by
    apply invariant_of_boot b hrun (bounded_boot b hmram hmswp)
    intro k k' vma call a _ hbounded halias hstep
    exact hbounded.step hstep halias
  exact hinv.2.accesses_iff call

instance (k : Krnl m) (a : DevAccess) : Decidable (a.Inside k) :=
  inferInstanceAs (Decidable (_ < _))

instance (k : Krnl m) (pgn : Addr) (off : Nat) : Decidable (SwappedInside k pgn off) :=
  Option.decidableForallMem
    (p := fun swpoff : Addr => (aliasFpn swpoff).toNat * 256 + off < k.mram.maxsz) _

instance (k : Krnl m) (pgn : Addr) : Decidable (VictimInside k pgn) :=
  have := Option.decidableForallMem
    (p := fun vicpgn : Addr => SwappedInside k vicpgn 255) k.mm.fifoPgn.getLast?
  inferInstanceAs (Decidable (_ = false → _ ≠ [] → _))

instance (k : Krnl m) (call : MemCall) : Decidable (AliasInside k call) :=
  Option.decidableForallMem
    (p := fun vaddr : BitVec 32 =>
      SwappedInside k (pagingPgn vaddr) (vaddr.toNat % 256) ∧
        VictimInside k (pagingPgn vaddr)) _

/-- Two pages are swapped out; the frame number that is read for page 0 is 0, so that an
access to it is inside of RAM. -/
theorem accesses_inside_page_zero :
    ∃ (es : List (MemCall × Answer)) (k : Krnl countingMalloc),
      Lts.Run (Stepped fun k call _ => AliasInside k call) smallBoot.krnl es k ∧
      (MemCall.read 0 3).accesses k = [⟨.mram, 3⟩] ∧
      ∀ a ∈ (MemCall.read 0 3).accesses k, a.Inside k := by
  obtain ⟨es, k, hrun, hobs⟩ := Lts.record_observe
    (fun k call _ => AliasInside k call)
    (fun (k : Krnl countingMalloc) call => call.run k) smallBoot.krnl
    [.alloc soleCaller 0 1024, .write 0 256 1, .write 0 512 2]
    (fun _ k => ((MemCall.read 0 3).accesses k, decide (AliasInside k (.read 0 3))))
    (v := ([⟨.mram, 3⟩], true)) (by decide +kernel)
  obtain ⟨haccesses, halias⟩ := Prod.mk.inj hobs
  exact ⟨es, k, hrun, haccesses,
    (accesses_inside smallBoot (Or.inr rfl) (Or.inr rfl) hrun (.read 0 3)).mpr
      (of_decide_eq_true halias)⟩

/-- After the same instructions, page 1 is in frame 1 of the swap device, and frame 32 is
read for it: the address is 8192, and RAM has 2048 bytes. -/
theorem not_accesses_inside :
    ¬ ∀ (b : Boot), pageSz ≤ b.memramsz → pageSz ≤ b.memswpsz →
      ∀ (es : List (MemCall × Answer)) (k : Krnl countingMalloc),
        Lts.Run (Stepped fun _ call _ => call.InRange) b.krnl es k →
        ∀ call : MemCall, call.InRange → ∀ a ∈ call.accesses k, a.Inside k := by
  intro hclaim
  obtain ⟨es, k, hrun, hobs⟩ := Lts.record_observe
    (fun (_ : Krnl countingMalloc) (call : MemCall) _ => call.InRange)
    (fun k call => call.run k) smallBoot.krnl
    [.alloc soleCaller 0 1024, .write 0 256 1, .write 0 512 2]
    (fun _ k => ((MemCall.read 0 256).accesses k, k.mram.maxsz))
    (v := ([⟨.mram, 8192⟩], 2048)) (by decide +kernel)
  obtain ⟨haccesses, hmax⟩ := Prod.mk.inj hobs
  have hinside := hclaim smallBoot (by decide) (by decide) es k hrun (.read 0 256)
    (by decide) ⟨.mram, 8192⟩ (by rw [haccesses]; exact List.mem_singleton_self _)
  rw [DevAccess.Inside, Krnl.device, hmax] at hinside
  exact absurd hinside (by decide)

end Memory
end Hdh
