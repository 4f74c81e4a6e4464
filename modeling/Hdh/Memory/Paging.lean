import Hdh.Memory.Kernel

/-!
# What a page access does

`pg_getpage` has four exits: the page is present, there is no page to evict, the page to
evict cannot be evicted, or it is evicted.  There is one equation for each of them.

Main results:

- Theorem `pageFound`: the four cases.
- Theorems `pgGetpage_present`, `pgGetpage_noVictim`, `pgGetpage_stuck` and
  `pgGetpage_evict`: what `pg_getpage` does in each of them.
- Theorem `pgGetpage_step`: a page access finds the page, evicts the last page of the
  list, or fails.
-/

namespace Hdh
namespace Memory

variable {m : Radix.Malloc Nat 0} {k k' : Krnl m}

/-! ## What can be found -/

/-- A victim that can be evicted: it is PRESENT, and there is a free swap frame. -/
def Evictable (k : Krnl m) (vicpgn : Addr) : Prop :=
  k.activeMswp.freeFpList ≠ [] ∧ pagePresent (pteGetEntry k.mm.pgd vicpgn) = true

/-- What can be missing for an eviction. -/
theorem not_evictable_iff {vicpgn : Addr} :
    ¬ Evictable k vicpgn ↔ k.activeMswp.freeFpList = [] ∨
      pagePresent (pteGetEntry k.mm.pgd vicpgn) = false := by
  rw [Evictable, not_and_or, not_not, Bool.not_eq_true]

/-- What `pg_getpage` can find. -/
inductive PageFound (k : Krnl m) (pgn : Addr) : Prop
  | present (hpresent : pagePresent (pteGetEntry k.mm.pgd pgn) = true)
  | noVictim (habsent : pagePresent (pteGetEntry k.mm.pgd pgn) = false)
      (hfifo : k.mm.fifoPgn = [])
  | stuck {vicpgn : Addr} {fifoPgn : List Addr}
      (habsent : pagePresent (pteGetEntry k.mm.pgd pgn) = false)
      (hfifo : k.mm.fifoPgn = fifoPgn ++ [vicpgn]) (hvictim : ¬ Evictable k vicpgn)
  | victim {vicpgn swpfpn : Addr} {fifoPgn rest : List Addr}
      (habsent : pagePresent (pteGetEntry k.mm.pgd pgn) = false)
      (hfifo : k.mm.fifoPgn = fifoPgn ++ [vicpgn])
      (hvictim : pagePresent (pteGetEntry k.mm.pgd vicpgn) = true)
      (hfree : k.activeMswp.freeFpList = swpfpn :: rest)

/-- Every page is found: it is present, or a fault is tried. -/
theorem pageFound (k : Krnl m) (pgn : Addr) : PageFound k pgn := by
  cases hpresent : pagePresent (pteGetEntry k.mm.pgd pgn) with
  | true => exact .present hpresent
  | false =>
      rcases List.eq_nil_or_concat k.mm.fifoPgn with hfifo | ⟨fifoPgn, vicpgn, hfifo⟩
      · exact .noVictim hpresent hfifo
      · rw [List.concat_eq_append] at hfifo
        by_cases hvictim : Evictable k vicpgn
        · obtain ⟨swpfpn, rest, hfree⟩ := List.exists_cons_of_ne_nil hvictim.1
          exact .victim hpresent hfifo hvictim.2 hfree
        · exact .stuck hpresent hfifo hvictim

/-- The victim is the last page of the list. -/
theorem findVictimPage_eq_some {fifoPgn rest : List Addr} {pgn : Addr}
    (h : findVictimPage fifoPgn = some (pgn, rest)) : fifoPgn = rest ++ [pgn] := by
  unfold findVictimPage at h
  split at h
  · cases h
  · cases h
    exact (List.dropLast_append_getLast (by simp)).symm

/-- The last page of the list is the victim. -/
theorem findVictimPage_append (fifoPgn : List Addr) (vicpgn : Addr) :
    findVictimPage (fifoPgn ++ [vicpgn]) = some (vicpgn, fifoPgn) := by
  cases fifoPgn with
  | nil => rfl
  | cons p fifoPgn =>
      rw [List.cons_append, findVictimPage]
      simp only [← List.cons_append, List.getLast_append_singleton, List.dropLast_concat]

/-! ## The exits -/

/-- A page that is present is answered at once. -/
theorem pgGetpage_present {pgn : Addr}
    (hpresent : pagePresent (pteGetEntry k.mm.pgd pgn) = true) :
    pgGetpage k pgn = some (0, pagingFpn (pteGetEntry k.mm.pgd pgn), k) := by
  simp [pgGetpage, hpresent]

/-- A fault that fails is a failure of the page access. -/
theorem pgGetpage_of_fault_failed {pgn : Addr}
    (habsent : pagePresent (pteGetEntry k.mm.pgd pgn) = false)
    (hfault : pgFault k pgn = some (-1, k')) : pgGetpage k pgn = some (-1, 0, k') := by
  simp [pgGetpage, habsent, hfault]

/-- A fault without a victim fails. -/
theorem pgGetpage_noVictim {pgn : Addr}
    (habsent : pagePresent (pteGetEntry k.mm.pgd pgn) = false)
    (hfifo : k.mm.fifoPgn = []) : pgGetpage k pgn = some (-1, 0, k) := by
  apply pgGetpage_of_fault_failed habsent
  rw [pgFault, hfifo]
  rfl

/-- When the victim cannot be evicted, the list has lost it. -/
theorem pgGetpage_stuck {pgn vicpgn : Addr} {fifoPgn : List Addr}
    (habsent : pagePresent (pteGetEntry k.mm.pgd pgn) = false)
    (hfifo : k.mm.fifoPgn = fifoPgn ++ [vicpgn]) (hvictim : ¬ Evictable k vicpgn) :
    pgGetpage k pgn =
      some (-1, 0, { k with mm := { k.mm with fifoPgn := fifoPgn } }) := by
  apply pgGetpage_of_fault_failed habsent
  rw [pgFault, hfifo, findVictimPage_append]
  simp only
  cases hget : k.activeMswp.getFreefp with
  | none => rfl
  | some got =>
      obtain ⟨hfree, hmswp⟩ := Memphy.getFreefp_eq_some hget
      have hnonempty : k.activeMswp.freeFpList ≠ [] := by
        rw [hfree]
        exact List.cons_ne_nil _ _
      have hnot := (not_evictable_iff.mp hvictim).resolve_left hnonempty
      -- the frame is put back where it was taken from
      have hput : got.2.putFreefp got.1 = k.activeMswp := by
        rw [Memphy.putFreefp, ← hfree, hmswp]
      simp only [hnot, if_true, hput]

/-- The page table after an eviction: the victim is swapped out, and its frame is the
frame of another page. -/
def evictPgd (pgd : PageDir m) (vicpgn swpfpn pgn vicfpn : Addr) : PageDir m :=
  (pteSetFpn (pteSetSwap pgd vicpgn 0 swpfpn).2 pgn vicfpn).2

/-- The kernel after an eviction; the last argument is the swap device after the copy. -/
def Krnl.evict (k : Krnl m) (vicpgn swpfpn pgn : Addr) (fifoPgn : List Addr)
    (mswp : Memphy) : Krnl m :=
  { k with
    mm := { k.mm with
      pgd := evictPgd k.mm.pgd vicpgn swpfpn pgn (pagingFpn (pteGetEntry k.mm.pgd vicpgn))
      fifoPgn := pgn :: fifoPgn }
    activeMswp := mswp }

/-- A fault with a victim that is present and a free swap frame is one page copy. -/
theorem pgFault_evict {pgn vicpgn swpfpn : Addr} {fifoPgn rest : List Addr}
    (hfifo : k.mm.fifoPgn = fifoPgn ++ [vicpgn])
    (hvictim : pagePresent (pteGetEntry k.mm.pgd vicpgn) = true)
    (hfree : k.activeMswp.freeFpList = swpfpn :: rest) :
    pgFault k pgn =
      (swapCpPage k.mram (pagingFpn (pteGetEntry k.mm.pgd vicpgn))
        { k.activeMswp with freeFpList := rest } swpfpn).map fun r =>
          (0, k.evict vicpgn swpfpn pgn fifoPgn r.2.2) := by
  have hget : k.activeMswp.getFreefp =
      some (swpfpn, { k.activeMswp with freeFpList := rest }) := by
    rw [Memphy.getFreefp, hfree]
  rw [pgFault, hfifo, findVictimPage_append]
  simp only [hget, hvictim, Bool.true_eq_false, if_false]
  cases hcopy : swapCpPage k.mram (pagingFpn (pteGetEntry k.mm.pgd vicpgn))
      { k.activeMswp with freeFpList := rest } swpfpn with
  | none => rfl
  | some r =>
      obtain ⟨ret, mram, mswp⟩ := r
      obtain ⟨rfl, rfl, -⟩ := swapCpPage_frame hcopy
      rfl

/-- The page is present in the frame of the victim after it. -/
theorem pteGetEntry_evict (k : Krnl m) (vicpgn swpfpn pgn : Addr) (fifoPgn : List Addr)
    (mswp : Memphy) :
    pagePresent (pteGetEntry (k.evict vicpgn swpfpn pgn fifoPgn mswp).mm.pgd pgn) = true ∧
      pagingFpn (pteGetEntry (k.evict vicpgn swpfpn pgn fifoPgn mswp).mm.pgd pgn) =
        pagingFpn (pteGetEntry k.mm.pgd vicpgn) := by
  have hentry := pteGetEntry_setFpn (pteSetSwap k.mm.pgd vicpgn 0 swpfpn).2 pgn
    (pagingFpn (pteGetEntry k.mm.pgd vicpgn)) pgn
  rw [if_pos rfl] at hentry
  simp only [Krnl.evict, evictPgd, hentry]
  exact ⟨pagePresent_setFpn _ _, pagingFpn_setFpn (pagingFpn_fits _) _⟩

/-- A page access that evicts a page answers the frame of the victim. -/
theorem pgGetpage_evict {pgn vicpgn swpfpn : Addr} {fifoPgn rest : List Addr}
    (habsent : pagePresent (pteGetEntry k.mm.pgd pgn) = false)
    (hfifo : k.mm.fifoPgn = fifoPgn ++ [vicpgn])
    (hvictim : pagePresent (pteGetEntry k.mm.pgd vicpgn) = true)
    (hfree : k.activeMswp.freeFpList = swpfpn :: rest) :
    pgGetpage k pgn =
      (swapCpPage k.mram (pagingFpn (pteGetEntry k.mm.pgd vicpgn))
        { k.activeMswp with freeFpList := rest } swpfpn).map fun r =>
          (0, pagingFpn (pteGetEntry k.mm.pgd vicpgn),
            k.evict vicpgn swpfpn pgn fifoPgn r.2.2) := by
  simp only [pgGetpage, habsent, pgFault_evict hfifo hvictim hfree, Bool.false_eq_true,
    if_false, Option.map_map]
  congr 1
  funext r
  obtain ⟨hpresent, hfpn⟩ := pteGetEntry_evict k vicpgn swpfpn pgn fifoPgn r.2.2
  simp only [Function.comp_apply, hpresent, hfpn]
  rfl

/-! ## Page accesses -/

/-- What `pg_getpage` can do: the frame of the page, or a failure, and the kernel. -/
inductive PageStep (k : Krnl m) (pgn : Addr) : Option Addr → Krnl m → Prop
  | present (hpresent : pagePresent (pteGetEntry k.mm.pgd pgn) = true) :
      PageStep k pgn (some (pagingFpn (pteGetEntry k.mm.pgd pgn))) k
  | noVictim (habsent : pagePresent (pteGetEntry k.mm.pgd pgn) = false)
      (hfifo : k.mm.fifoPgn = []) : PageStep k pgn none k
  | dropped {vicpgn : Addr} {fifoPgn : List Addr}
      (habsent : pagePresent (pteGetEntry k.mm.pgd pgn) = false)
      (hfifo : k.mm.fifoPgn = fifoPgn ++ [vicpgn])
      (hfail : k.activeMswp.freeFpList = [] ∨
        pagePresent (pteGetEntry k.mm.pgd vicpgn) = false) :
      PageStep k pgn none { k with mm := { k.mm with fifoPgn := fifoPgn } }
  | evicted {vicpgn swpfpn : Addr} {fifoPgn rest : List Addr} {mswp : Memphy}
      (habsent : pagePresent (pteGetEntry k.mm.pgd pgn) = false)
      (hfifo : k.mm.fifoPgn = fifoPgn ++ [vicpgn])
      (hvictim : pagePresent (pteGetEntry k.mm.pgd vicpgn) = true)
      (hfree : k.activeMswp.freeFpList = swpfpn :: rest)
      (hrest : mswp.freeFpList = rest) (hmax : mswp.maxsz = k.activeMswp.maxsz) :
      PageStep k pgn (some (pagingFpn (pteGetEntry k.mm.pgd vicpgn))) { k with
        mm := { k.mm with
          pgd := evictPgd k.mm.pgd vicpgn swpfpn pgn
            (pagingFpn (pteGetEntry k.mm.pgd vicpgn))
          fifoPgn := pgn :: fifoPgn }
        activeMswp := mswp }

/-- `pg_getpage` is one of the page steps. -/
theorem pgGetpage_step {pgn fpn : Addr} {ret : Int}
    (h : pgGetpage k pgn = some (ret, fpn, k')) :
    (ret = 0 ∧ PageStep k pgn (some fpn) k') ∨ (ret = -1 ∧ PageStep k pgn none k') := by
  cases pageFound k pgn with
  | present hpresent =>
      rw [pgGetpage_present hpresent] at h
      cases h
      exact Or.inl ⟨rfl, .present hpresent⟩
  | noVictim habsent hfifo =>
      rw [pgGetpage_noVictim habsent hfifo] at h
      cases h
      exact Or.inr ⟨rfl, .noVictim habsent hfifo⟩
  | stuck habsent hfifo hvictim =>
      rw [pgGetpage_stuck habsent hfifo hvictim] at h
      cases h
      exact Or.inr ⟨rfl, .dropped habsent hfifo (not_evictable_iff.mp hvictim)⟩
  | victim habsent hfifo hvictim hfree =>
      rw [pgGetpage_evict habsent hfifo hvictim hfree] at h
      obtain ⟨⟨ret₁, mram, mswp⟩, hcopy, heq⟩ := Option.map_eq_some_iff.mp h
      cases heq
      obtain ⟨-, -, hrest, hmax, -⟩ := swapCpPage_frame hcopy
      exact Or.inl ⟨rfl, .evicted habsent hfifo hvictim hfree hrest hmax⟩

/-- A page access changes neither the areas nor the regions nor RAM. -/
theorem PageStep.frame {pgn : Addr} {res : Option Addr} (h : PageStep k pgn res k') :
    k'.mm.mmap = k.mm.mmap ∧ k'.mm.symrgtbl = k.mm.symrgtbl ∧
      k'.mm.entered = k.mm.entered ∧ k'.mram = k.mram := by
  cases h <;> exact ⟨rfl, rfl, rfl, rfl⟩

end Memory
end Hdh
