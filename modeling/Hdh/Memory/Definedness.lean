import Hdh.Memory.Backing
import Hdh.Memory.Bounds
import Hdh.Memory.RegionIds

/-!
# Definedness

The two ways in which an instruction of the memory goes past the end of an array: `symrgtbl`
has no cell for its index, or a byte is outside of its device.  There are no others: with an
index that is handled, `ALLOC` and `FREE` come back whatever is left of the frames.  (What the
search of `__sys_memmap` reads in a PCB that has been freed is up to the caller here, and an
`int` wraps.)  And there is a size of RAM from which no byte can be outside, since the frame
number that is read for a page on the swap device is less than 8192, or 32 times the number of
its swap frame.

Main results:

- Theorem `Guarded.run_isSome_iff`: which instructions stay inside.
- Theorem `guarded_of_run`: the invariant that this rests on.
- Theorems `SlotsCovered.aliasInside` and `slotsCovered_of_run`: with enough RAM, no
  instruction makes an access that is outside.
-/

namespace Hdh
namespace Memory

variable {m : Radix.Malloc Nat 0} {k k' : Krnl m} {vma : VmArea}

/-! ## Which instructions stay inside -/

/-- The one area, frames that are inside of their devices, and random access to both. -/
structure Guarded (k : Krnl m) : Prop where
  area : ∃ vma, OneArea k vma
  bounded : Bounded k
  random : k.activeMswp.rdmflg = true

/-- RAM is a random access device. -/
theorem Guarded.mram_random (h : Guarded k) : k.mram.rdmflg = true := by
  obtain ⟨vma, harea⟩ := h.area
  exact harea.random

/-- An access looks at a cell of the table, or at none. -/
theorem accessAddr_isSome_iff (harea : OneArea k vma) (rgid : Int) (offset : Addr) :
    (accessAddr k 0 rgid offset).isSome ↔ CurrgHandled k rgid := by
  by_cases hin : IdInTable rgid
  · refine iff_of_true ?_ (Or.inl hin)
    obtain ⟨i, hindex⟩ := symIndex_of_range hin
    rw [accessAddr_eq harea, hindex]
    split <;> simp
  · rcases accessAddr_outside (k := k) hin offset with
      ⟨haddr, hhandled, -⟩ | ⟨haddr, hnot⟩
    · rw [haddr]
      exact iff_of_true rfl hhandled
    · rw [haddr]
      exact iff_of_false Bool.false_ne_true hnot

/-- A `READ` or a `WRITE`. -/
theorem Guarded.access_isSome_iff (h : Guarded k) {call : MemCall} {rgid : Int}
    {offset : Addr} (htarget : call.target = some (rgid, offset)) :
    (call.run k).isSome ↔ CurrgHandled k rgid ∧ AliasInside k call := by
  obtain ⟨vma, harea⟩ := h.area
  rw [← accessAddr_isSome_iff harea rgid offset]
  cases haddr : accessAddr k 0 rgid offset with
  | none =>
      have hnone : call.run k = none := by
        rcases call.eq_of_target htarget with rfl | ⟨value, rfl⟩
        · simp [MemCall.run, read, haddr]
        · simp [MemCall.run, write, haddr]
      simp [hnone]
  | some checked =>
      cases checked with
      | none =>
          have hvaddr : call.vaddr k = none := by simp [MemCall.vaddr, htarget, haddr]
          have hrun : (call.run k).isSome = true := by
            rcases call.eq_of_target htarget with rfl | ⟨value, rfl⟩
            · simp [MemCall.run, read, haddr]
            · simp [MemCall.run, write, haddr]
          rw [hrun]
          exact iff_of_true rfl ⟨rfl, by simp [AliasInside, hvaddr]⟩
      | some vaddr =>
          have hvaddr := MemCall.vaddr_eq htarget haddr
          rw [Memory.run_isSome_iff h.mram_random h.random hvaddr, h.bounded.accesses_iff]
          simp

/-- `ALLOC`. -/
theorem alloc_isSome_iff (harea : OneArea k vma) (caller : Caller) (rgid : Int)
    (size : Addr) : ((MemCall.alloc caller rgid size).run k).isSome ↔ IdInTable rgid := by
  by_cases hin : IdInTable rgid
  · refine iff_of_true ?_ hin
    obtain ⟨i, hindex⟩ := symIndex_of_range hin
    obtain ⟨a, k', hrun⟩ := alloc_some harea caller i size
    rw [symIndex_eq_some hindex, hrun]
    rfl
  · refine iff_of_false ?_ hin
    have hindex := symIndex_eq_none_iff.mpr hin
    simp [MemCall.run, alloc, hindex]

/-- `FREE`. -/
theorem free_isSome_iff (harea : OneArea k vma) (rgid : Int) :
    ((MemCall.free rgid).run k).isSome ↔ rgid ≠ maxSymtblSz := by
  rw [MemCall.run, Option.isSome_map, free]
  by_cases hin : IdInTable rgid
  · obtain ⟨i, hindex⟩ := symIndex_of_range hin
    refine iff_of_true ?_ ?_
    · rw [hindex]
      simp only [Mm.setRg, harea.mmap]
      split_ifs <;> rfl
    · unfold IdInTable at hin
      omega
  · have hindex := symIndex_eq_none_iff.mpr hin
    rw [hindex, ← symInvalid_iff hin]
    split_ifs with hinvalid <;> simp [hinvalid]

/-- An instruction stays inside exactly when its index is handled and its accesses are inside
of the devices. -/
theorem Guarded.run_isSome_iff (h : Guarded k) (call : MemCall) :
    (call.run k).isSome ↔ IdHandled k call ∧ AliasInside k call := by
  obtain ⟨vma, harea⟩ := h.area
  cases call with
  | alloc caller rgid size =>
      rw [alloc_isSome_iff harea, IdHandled, and_iff_left]
      simp [AliasInside, MemCall.vaddr, MemCall.target]
  | free rgid =>
      rw [free_isSome_iff harea, IdHandled, and_iff_left]
      simp [AliasInside, MemCall.vaddr, MemCall.target]
  | read rgid offset => exact h.access_isSome_iff rfl
  | write rgid offset value => exact h.access_isSome_iff rfl

/-! ## The invariant -/

/-- A page access leaves the swap device a device of random access. -/
theorem random_of_pgGetpage {pgn fpn : Addr} {ret : Int}
    (h : pgGetpage k pgn = some (ret, fpn, k')) :
    k'.activeMswp.rdmflg = k.activeMswp.rdmflg := by
  cases pageFound k pgn with
  | present hpresent =>
      rw [pgGetpage_present hpresent] at h
      cases h
      rfl
  | noVictim habsent hfifo =>
      rw [pgGetpage_noVictim habsent hfifo] at h
      cases h
      rfl
  | stuck habsent hfifo hvictim =>
      rw [pgGetpage_stuck habsent hfifo hvictim] at h
      cases h
      rfl
  | victim habsent hfifo hvictim hfree =>
      rw [pgGetpage_evict habsent hfifo hvictim hfree] at h
      obtain ⟨⟨ret₁, mram, mswp⟩, hcopy, heq⟩ := Option.map_eq_some_iff.mp h
      cases heq
      obtain ⟨-, -, -, -, hrdm⟩ := swapCpPage_frame hcopy
      exact hrdm

/-- A read leaves the swap device random. -/
theorem random_of_pgGetval {vaddr : BitVec 32} {ret : Int} {data : Option Byte}
    (h : pgGetval k vaddr = some (ret, data, k')) :
    k'.activeMswp.rdmflg = k.activeMswp.rdmflg := by
  unfold pgGetval at h
  split at h
  · cases h
  · rename_i ret₁ fpn k₁ hget
    split_ifs at h
    · cases h
      exact random_of_pgGetpage hget
    · obtain ⟨r, -, heq⟩ := Option.map_eq_some_iff.mp h
      have hsame := random_of_pgGetpage hget
      cases heq
      exact hsame

/-- So does a write. -/
theorem random_of_pgSetval {vaddr : BitVec 32} {value : Byte} {ret : Int}
    (h : pgSetval k vaddr value = some (ret, k')) :
    k'.activeMswp.rdmflg = k.activeMswp.rdmflg := by
  unfold pgSetval at h
  split at h
  · cases h
  · rename_i ret₁ fpn k₁ hget
    split_ifs at h
    · cases h
      exact random_of_pgGetpage hget
    · obtain ⟨r, -, heq⟩ := Option.map_eq_some_iff.mp h
      have hsame := random_of_pgGetpage hget
      cases heq
      exact hsame

/-- So does an instruction. -/
theorem random_of_run (harea : OneArea k vma) {call : MemCall} {a : Answer}
    (h : call.run k = some (a, k')) : k'.activeMswp.rdmflg = k.activeMswp.rdmflg := by
  cases call with
  | alloc caller rgid size =>
      cases run_step harea h with
      | hit => rfl
      | grow => rfl
      | rejected htarget => cases htarget
      | failed htarget => cases htarget
  | free rgid =>
      cases run_step harea h with
      | freed => rfl
      | notFreed => rfl
      | rejected htarget => cases htarget
      | failed htarget => cases htarget
  | read rgid offset =>
      obtain ⟨⟨ret, data, k₁⟩, hcall, heq⟩ := Option.map_eq_some_iff.mp h
      cases heq
      unfold read at hcall
      split at hcall
      · cases hcall
      · cases hcall
        rfl
      · exact random_of_pgGetval hcall
  | write rgid offset value =>
      obtain ⟨⟨ret, k₁⟩, hcall, heq⟩ := Option.map_eq_some_iff.mp h
      cases heq
      unfold write at hcall
      split at hcall
      · cases hcall
      · cases hcall
        rfl
      · exact random_of_pgSetval hcall

/-- An instruction that stays inside keeps the invariant. -/
theorem Guarded.step (h : Guarded k) {call : MemCall} {a : Answer}
    (hcall : call.run k = some (a, k')) : Guarded k' := by
  have hsome : (call.run k).isSome := by
    rw [hcall]
    rfl
  obtain ⟨-, halias⟩ := (h.run_isSome_iff call).mp hsome
  obtain ⟨vma, harea⟩ := h.area
  have hstep := run_step harea hcall
  exact ⟨hstep.oneArea harea, h.bounded.step hstep halias,
    (random_of_run harea hcall).trans h.random⟩

/-- The frames are inside of their devices at the beginning. -/
theorem guarded_boot (b : Boot) (hmram : 2 * pageSz ≤ b.memramsz ∨ b.staleMram = [])
    (hmswp : 2 * pageSz ≤ b.memswpsz ∨ b.staleMswp = []) : Guarded (b.krnl : Krnl m) :=
  ⟨⟨_, oneArea_boot b⟩, bounded_boot b hmram hmswp, rfl⟩

/-- They are in every reachable state. -/
theorem guarded_of_run (b : Boot) (hmram : 2 * pageSz ≤ b.memramsz ∨ b.staleMram = [])
    (hmswp : 2 * pageSz ≤ b.memswpsz ∨ b.staleMswp = []) {es : List (MemCall × Answer)}
    (hrun : Lts.Run (Stepped fun _ _ _ => True) b.krnl es k) : Guarded k := by
  apply hrun.invariant (guarded_boot b hmram hmswp)
  rintro k ⟨call, a⟩ k' hguarded ⟨-, hcall⟩
  exact hguarded.step hcall

/-! ## Enough RAM -/

/-- RAM has the frames whose numbers are read for the pages on the swap device: it has
2 MiB, or 32 times the bytes of the swap device. -/
def CoversSwap (memramsz memswpsz : Nat) : Prop :=
  2 ^ 21 ≤ memramsz ∨ 32 * memswpsz ≤ memramsz

instance (memramsz memswpsz : Nat) : Decidable (CoversSwap memramsz memswpsz) :=
  inferInstanceAs (Decidable (_ ∨ _))

/-- The frame number that is read for a page on the swap device is that of a frame. -/
structure SlotsCovered (k : Krnl m) : Prop where
  sizes : CoversSwap k.mram.maxsz k.activeMswp.maxsz
  slots : ∀ key, ∀ swpoff ∈ (views k.mm.pgd key).slot, k.mram.HasFrame (aliasFpn swpoff)

/-- Every swap offset, taken for a frame number, is that of a frame of RAM. -/
theorem CoversSwap.hasFrame (h : CoversSwap k.mram.maxsz k.activeMswp.maxsz) {swpfpn : Addr}
    (hswap : k.activeMswp.HasFrame swpfpn) : k.mram.HasFrame (aliasFpn swpfpn) := by
  have hsmall : ∀ slot < 256, slot * 32 * 256 + 255 < 2 ^ 21 := by omega
  have hlinear : ∀ slot ≤ swpfpn.toNat,
      slot * 32 * 256 + 255 < 32 * (swpfpn.toNat * 256 + 256) := by omega
  rw [Memphy.hasFrame_iff, toNat_aliasFpn]
  rcases h with hram | hram
  · exact (hsmall _ (Nat.mod_lt _ (by decide))).trans_le hram
  · have hmul := Nat.mul_le_mul_left 32 (Memphy.hasFrame_iff.mp hswap)
    exact (hlinear _ (Nat.mod_le _ _)).trans_le (hmul.trans hram)

/-- So an access to a page that is swapped out is inside of RAM. -/
theorem SlotsCovered.aliasInside (h : SlotsCovered k) (call : MemCall) : AliasInside k call := by
  have hinside : ∀ pgn off, off < 256 → SwappedInside k pgn off := by
    intro pgn off hoff swpoff hslot
    have hframe := Memphy.hasFrame_iff.mp (h.slots _ _ hslot)
    omega
  intro vaddr _
  refine ⟨hinside _ _ (Nat.mod_lt _ (by decide)), ?_⟩
  intro _ _ vicpgn _
  exact hinside vicpgn 255 (by decide)

/-- A page access puts a page on the swap device under the number of one of its frames. -/
theorem SlotsCovered.page (h : SlotsCovered k) (hb : Bounded k) {pgn : Addr} {res : Option Addr}
    (hpage : PageStep k pgn res k') : SlotsCovered k' := by
  cases hpage with
  | present => exact h
  | noVictim => exact h
  | dropped => exact ⟨h.sizes, h.slots⟩
  | @evicted vicpgn swpfpn fifoPgn rest mswp habsent hfifo hvictim hfree hrest hmax =>
      refine ⟨?_, ?_⟩
      · rw [show mswp.maxsz = k.activeMswp.maxsz from hmax]
        exact h.sizes
      · intro key swpoff hslot
        simp only at hslot
        rw [views_evict _ _ _ _ (pagingFpn_fits _)] at hslot
        by_cases hkey : key = pageKey pgn
        · rw [hkey, Function.update_self] at hslot
          cases hslot
        rw [Function.update_of_ne hkey] at hslot
        by_cases hvic : key = pageKey vicpgn
        · rw [hvic, Function.update_self] at hslot
          cases hslot
          rw [aliasFpn_swapSlot]
          exact h.sizes.hasFrame (hb.mswpFree swpfpn (by rw [hfree]; exact List.mem_cons_self ..))
        · rw [Function.update_of_ne hvic] at hslot
          exact h.slots key swpoff hslot

/-- A growth maps pages that are resident. -/
theorem SlotsCovered.grow (h : SlotsCovered k) (caller : Caller) (i : Fin maxSymtblSz) (size : Addr)
    (freerg : List VmRg) : SlotsCovered (k.grow vma caller i size freerg) := by
  have hmax : (k.grow vma caller i size freerg).mram.maxsz = k.mram.maxsz :=
    (growMram_frame k caller size).2.1
  refine ⟨?_, ?_⟩
  · rw [hmax]
    exact h.sizes
  · intro key swpoff hslot
    rw [Memphy.hasFrame_congr hmax]
    by_cases hkey : key ∈ (growPairs k vma caller size).map fun pf => pageKey pf.1
    · obtain ⟨pf, hpf, rfl⟩ := List.mem_map.mp hkey
      rw [views_grow_of_mem i freerg hpf] at hslot
      cases hslot
    · rw [views_grow_of_not_mem i freerg hkey] at hslot
      exact h.slots key swpoff hslot

/-- Every instruction keeps this. -/
theorem SlotsCovered.step (h : SlotsCovered k) (hb : Bounded k) {call : MemCall} {a : Answer}
    (hstep : MemStep k vma call a k') : SlotsCovered k' := by
  cases hstep with
  | hit => exact ⟨h.sizes, h.slots⟩
  | grow => exact h.grow _ _ _ _
  | freed => exact ⟨h.sizes, h.slots⟩
  | notFreed => exact h
  | rejected => exact h
  | failed _ _ hpage => exact h.page hb hpage
  | read _ hpage => exact h.page hb hpage
  | written _ hpage =>
      have hpages := h.page hb hpage
      exact ⟨hpages.sizes, hpages.slots⟩

/-- It holds in every reachable state. -/
theorem slotsCovered_of_run (b : Boot) (hmram : 2 * pageSz ≤ b.memramsz ∨ b.staleMram = [])
    (hmswp : 2 * pageSz ≤ b.memswpsz ∨ b.staleMswp = [])
    (hcovers : CoversSwap b.memramsz b.memswpsz) {es : List (MemCall × Answer)}
    (hrun : Lts.Run (Stepped fun _ _ _ => True) b.krnl es k) : SlotsCovered k := by
  apply hrun.invariant_of (J := Guarded)
  · exact fun es t h => guarded_of_run b hmram hmswp h
  · refine ⟨hcovers, ?_⟩
    intro key swpoff hslot
    rw [views_boot] at hslot
    cases hslot
  · rintro k ⟨call, a⟩ k' hguarded hcovered ⟨-, hcall⟩
    obtain ⟨vma, harea⟩ := hguarded.area
    exact hcovered.step hguarded.bounded (run_step harea hcall)

end Memory
end Hdh
