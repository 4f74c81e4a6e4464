import Hdh.Memory.Growth

/-!
# Releasing the frames of a process

`free_pcb_memph` is written for a page table of one level, an array of `PAGING_MAX_PGN`
entries.  The table has five levels: the 512 words at `pgd` are addresses or 0, and there
is nothing behind them.

Main results:

- Theorem `freeRounds_eq`: what the rounds inside of the array put on the free lists.
- Theorem `freePcbMemph_not_exact`: the frames in use are not what it returns, whatever
  the page table is.
-/

namespace Hdh
namespace Memory

variable {m : Radix.Malloc Nat 0} {k : Krnl m}

/-- `PAGING_MAX_PGN`: the pages of a bus of 22 bits. -/
def pagingMaxPgn : Nat := (2 ^ 22 + pageSz - 1) / pageSz

/-- `mm->pgd[pagenum]`; `init_mm` allocates 512 words. -/
def pgdWord (T : PageDir m) (pagenum : Nat) : Option (BitVec 64) :=
  if pagenum < 512 then
    some (BitVec.ofNat 64 (T.heap.cell (m.addr 0) (BitVec.ofNat 64 pagenum)))
  else none

/-- One round of the loop of `free_pcb_memph`.  The word is assigned to a `uint32_t`. -/
def freeRound (k : Krnl m) (pagenum : Nat) : Option (Krnl m) :=
  match pgdWord k.mm.pgd pagenum with
  | none => none
  | some word =>
      let pte := word.setWidth 32
      if pagePresent pte then some { k with mram := k.mram.putFreefp (pagingFpn pte) }
      else some { k with activeMswp := k.activeMswp.putFreefp (pagingSwp pte) }

/-- The first rounds of the loop. -/
def freeRounds (k : Krnl m) (n : Nat) : Option (Krnl m) :=
  (List.range n).foldlM freeRound k

/-- `free_pcb_memph`. -/
def freePcbMemph (k : Krnl m) : Option (Int × Krnl m) :=
  (freeRounds k pagingMaxPgn).map fun k => (0, k)

/-- The frames of the pages in RAM and the slots of the pages in the swap, once each, are
put on the free lists of the two devices, and nothing else. -/
def ReleasesExactly (k : Krnl m) : Prop :=
  ∃ ret k' frames slots, freePcbMemph k = some (ret, k') ∧
    k'.mram.freeFpList = frames ++ k.mram.freeFpList ∧
    k'.activeMswp.freeFpList = slots ++ k.activeMswp.freeFpList ∧
    frames.Nodup ∧ slots.Nodup ∧
    (∀ fpn, fpn ∈ frames ↔
      ∃ pgn, pageView (pteGetEntry k.mm.pgd pgn) = .resident fpn) ∧
    ∀ swpoff, swpoff ∈ slots ↔
      ∃ pgn, pageView (pteGetEntry k.mm.pgd pgn) = .swapped swpoff

/-- What the first rounds take for entries. -/
def pgdPtes (T : PageDir m) (n : Nat) : List (BitVec 32) :=
  (List.range n).map fun pagenum =>
    BitVec.ofNat 32 (T.heap.cell (m.addr 0) (BitVec.ofNat 64 pagenum))

/-- The frames that are put on the free list of RAM for a list of entries. -/
def ramPuts (ptes : List (BitVec 32)) : List Addr :=
  ((ptes.filter pagePresent).map pagingFpn).reverse

/-- The slots that are put on the free list of the swap for a list of entries. -/
def swapPuts (ptes : List (BitVec 32)) : List Addr :=
  ((ptes.filter fun pte => !pagePresent pte).map pagingSwp).reverse

/-- The kernel after a list of entries has been released. -/
def Krnl.released (k : Krnl m) (ptes : List (BitVec 32)) : Krnl m :=
  { k with
    mram := { k.mram with freeFpList := ramPuts ptes ++ k.mram.freeFpList }
    activeMswp :=
      { k.activeMswp with freeFpList := swapPuts ptes ++ k.activeMswp.freeFpList } }

/-- One round releases one entry. -/
theorem freeRound_released {n : Nat} (hn : n < 512) :
    freeRound (k.released (pgdPtes k.mm.pgd n)) n =
      some (k.released (pgdPtes k.mm.pgd (n + 1))) := by
  have hword : pgdWord k.mm.pgd n =
      some (BitVec.ofNat 64 (k.mm.pgd.heap.cell (m.addr 0) (BitVec.ofNat 64 n))) :=
    if_pos hn
  have hnext : pgdPtes k.mm.pgd (n + 1) = pgdPtes k.mm.pgd n ++
      [BitVec.ofNat 32 (k.mm.pgd.heap.cell (m.addr 0) (BitVec.ofNat 64 n))] := by
    rw [pgdPtes, List.range_succ, List.map_append]
    rfl
  have hmm : (k.released (pgdPtes k.mm.pgd n)).mm = k.mm := rfl
  rw [freeRound, hmm, hword, hnext]
  simp only [BitVec.setWidth_ofNat_of_le (by decide : 32 ≤ 64)]
  split_ifs with hpresent
  · simp [Krnl.released, ramPuts, swapPuts, Memphy.putFreefp, hpresent]
  · simp [Krnl.released, ramPuts, swapPuts, Memphy.putFreefp, hpresent]

theorem freeRounds_succ (k : Krnl m) (n : Nat) :
    freeRounds k (n + 1) = (freeRounds k n).bind fun k => freeRound k n := by
  rw [freeRounds, List.range_succ, List.foldlM_append]
  simp only [List.foldlM_cons, List.foldlM_nil, bind_pure, Option.bind_eq_bind, freeRounds]

/-- The rounds inside of the array put one frame or slot on the free lists for each of its
words, whatever the words stand for. -/
theorem freeRounds_eq (k : Krnl m) {n : Nat} (hn : n ≤ 512) :
    freeRounds k n = some (k.released (pgdPtes k.mm.pgd n)) := by
  induction n with
  | zero => rfl
  | succ n ih =>
      rw [freeRounds_succ, ih (by omega)]
      exact freeRound_released (by omega)

/-- With nothing mapped, slot 0 of the swap is put on its free list for each of the 512
words. -/
theorem swapPuts_empty : swapPuts (pgdPtes (Radix.Table.empty : PageDir m) 512) =
    List.replicate 512 0 := by
  have hptes : pgdPtes (Radix.Table.empty : PageDir m) 512 = List.replicate 512 0 := by
    rw [pgdPtes, List.eq_replicate_iff]
    refine ⟨by rw [List.length_map, List.length_range], ?_⟩
    intro pte hpte
    obtain ⟨pagenum, -, rfl⟩ := List.mem_map.mp hpte
    rfl
  have hswp : pagingSwp 0 = 0 := rfl
  rw [hptes, swapPuts, List.filter_replicate_of_pos (by decide), List.map_replicate, hswp,
    List.reverse_replicate]

/-- The loop leaves the array in round 512. -/
theorem freePcbMemph_undefined (k : Krnl m) : freePcbMemph k = none := by
  have hout : ∀ n, 512 < n → freeRounds k n = none := by
    intro n hn
    induction n, hn using Nat.le_induction with
    | base =>
        rw [freeRounds_succ, freeRounds_eq k (Nat.le_refl 512)]
        rfl
    | succ n _ ih =>
        rw [freeRounds_succ, ih]
        rfl
  rw [freePcbMemph, hout pagingMaxPgn (by decide)]
  rfl

/-- `free_pcb_memph` never returns exactly the frames in use.  Its first 512 rounds put
something on a free list for each word of the array at `pgd`, and the next one reads what
lies behind the array. -/
theorem freePcbMemph_not_exact (k : Krnl m) :
    ¬ ReleasesExactly k ∧
      freeRounds k 512 = some (k.released (pgdPtes k.mm.pgd 512)) ∧
      freePcbMemph k = none := by
  refine ⟨?_, freeRounds_eq k le_rfl, freePcbMemph_undefined k⟩
  rintro ⟨ret, k', frames, slots, hcall, -⟩
  rw [freePcbMemph_undefined] at hcall
  cases hcall

/-- On the kernel that `main` starts with. -/
theorem not_freePcbMemph_exact :
    ¬ ∀ k : Krnl countingMalloc, ReleasesExactly k := by
  intro hclaim
  obtain ⟨ret, k', frames, slots, hcall, -⟩ := hclaim smallBoot.krnl
  rw [freePcbMemph_undefined] at hcall
  cases hcall

end Memory
end Hdh
