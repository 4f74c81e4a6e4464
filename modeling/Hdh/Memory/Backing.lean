import Hdh.Memory.Allocator

/-!
# What an allocation is backed by

`__alloc` turns a size into a number of pages, and `inc_vma_limit` takes this number
for a number of bytes: the area grows by 4096 bytes for every 16 MiB that are asked
for.  `__alloc` does not look at the answer of the system call either.

Main results:

- Theorem `Backing.step`: the allocations that the growth covers keep `sbrk` below the
  limit of the area, and all pages below the limit entered.
- Theorem `alloc_sound_iff`: after such allocations, the next one is sound exactly when
  the growth covers it.
-/

namespace Hdh
namespace Memory

variable {m : Radix.Malloc Nat 0} {k k' : Krnl m} {vma : VmArea}

/-! ## How much an area grows -/

theorem incSize_toNat {size : Addr} (hsize : size.toNat < 2 ^ 31) :
    (incSize size).toNat = size.toNat / 4096 + 1 := by
  have hone : (1 : BitVec 32).toNat = 1 := rfl
  rw [incSize, BitVec.toNat_add, BitVec.toNat_setWidth, BitVec.toNat_udiv, page64Sz_toNat,
    hone]
  omega

/-- One page for every 16 MiB, and one more. -/
theorem pageCount_incSize {size : Addr} (hsize : size.toNat < 2 ^ 31) :
    pageCount ((incSize size).setWidth 64) = size.toNat / 4096 / 4096 + 1 := by
  rw [pageCount, BitVec.toNat_setWidth, incSize_toNat hsize]
  omega

theorem growSize_toNat {size : Addr} (hsize : size.toNat < 2 ^ 31) :
    (growSize size).toNat = 4096 * (size.toNat / 4096 / 4096 + 1) := by
  have hwide : ((incSize size).setWidth 64).toNat < 2 ^ 63 := by
    rw [BitVec.toNat_setWidth, incSize_toNat hsize]
    omega
  rw [growSize, page64AlignSz_toNat hwide, pageCount_incSize hsize]

theorem growCount_eq {size : Addr} (hsize : size.toNat < 2 ^ 31) :
    growCount size = size.toNat / 4096 / 4096 + 1 := by
  have hcount := pageCount_incSize hsize
  rw [growCount, incCount_eq (by omega), hcount]

/-- The pages of a growth of few pages follow each other. -/
theorem pageAddr_shift {addr : Addr} {pgit : Nat} (haddr : addr.toNat < 2 ^ 62)
    (haligned : addr.toNat % 4096 = 0) (hpgit : pgit < 2 ^ 19) :
    pageAddr addr pgit >>> 12 = BitVec.ofNat 64 (addr.toNat / 4096 + pgit) := by
  have hprod : (BitVec.ofNat 32 pgit * 4096#32).toNat = pgit * 4096 := by
    rw [BitVec.toNat_mul, BitVec.toNat_ofNat, BitVec.toNat_ofNat]
    omega
  apply BitVec.eq_of_toNat_eq
  rw [pageAddr, BitVec.toNat_ushiftRight, BitVec.toNat_add,
    signExtend_of_lt (by rw [hprod]; omega), hprod, BitVec.toNat_ofNat,
    Nat.shiftRight_eq_div_pow]
  omega

/-! ## The invariant -/

/-- The area covers `sbrk`, and the pages of the area have been entered in the page
table. -/
structure Backing (k : Krnl m) (vma : VmArea) : Prop where
  alloc : Allocated k vma
  nonempty : vma.vmFreergList ≠ []
  sbrk_le : vma.sbrk.toNat ≤ vma.vmEnd.toNat
  vmEnd_le : vma.vmEnd.toNat ≤ 4097 * vma.sbrk.toNat
  aligned : vma.vmEnd.toNat % 4096 = 0
  entered : ∀ p < vma.vmEnd.toNat / 4096, BitVec.ofNat 64 p ∈ k.mm.entered

/-- The free list has space for the request. -/
def Fits (vma : VmArea) (size : Addr) : Prop :=
  (getFreeVmrgArea vma.vmFreergList (size.setWidth 32)).1.isSome

/-- The system call finds the process and the frames. -/
def CanExtend (k : Krnl m) (caller : Caller) (size : Addr) : Prop :=
  caller.found = true ∧ growCount size ≤ k.mram.freeFpList.length

/-- The request fits into the free list, or the growth of the area covers it. -/
def Covered (k : Krnl m) (vma : VmArea) (caller : Caller) (size : Addr) : Prop :=
  Fits vma size ∨ vma.sbrk.toNat < 2 ^ 31 ∧ CanExtend k caller size ∧
    vma.sbrk.toNat + size.toNat ≤ vma.vmEnd.toNat + (growSize size).toNat

instance (vma : VmArea) (size : Addr) : Decidable (Fits vma size) :=
  inferInstanceAs (Decidable (_ = true))

instance (k : Krnl m) (caller : Caller) (size : Addr) :
    Decidable (CanExtend k caller size) :=
  inferInstanceAs (Decidable (_ ∧ _))

instance (k : Krnl m) (caller : Caller) (size : Addr) :
    Decidable (Covered k vma caller size) :=
  inferInstanceAs (Decidable (_ ∨ _))

theorem not_fits_of_none {size : Addr} {freerg : List VmRg}
    (hget : getFreeVmrgArea vma.vmFreergList (size.setWidth 32) = (none, freerg)) :
    ¬ Fits vma size := by
  simp [Fits, hget]

theorem backing_boot (b : Boot) (hstale : b.staleFreerg = []) :
    Backing (b.krnl : Krnl m) ⟨0, 0, 0, 0, [⟨0, 0⟩]⟩ := by
  refine ⟨allocated_boot b hstale, by simp, Nat.le_refl _, Nat.zero_le _, rfl, ?_⟩
  intro p hp
  exact absurd hp (Nat.not_lt_zero p)

/-- A request for nothing is served from the free list, which is never empty. -/
theorem Backing.size_pos (h : Backing k vma) {size : Addr} {freerg : List VmRg}
    (hget : getFreeVmrgArea vma.vmFreergList (size.setWidth 32) = (none, freerg)) :
    0 < size.toNat := by
  rw [Nat.pos_iff_ne_zero]
  intro hzero
  obtain rfl : size = 0 := BitVec.eq_of_toNat_eq hzero
  obtain ⟨-, hloop⟩ := getFreeVmrgArea_eq_none hget h.alloc.start_ne
  obtain ⟨rg, hrg⟩ := List.exists_mem_of_ne_nil _ h.nonempty
  have hbelow := h.alloc.regions.free_below rg hrg
  have hfit : rg.rgStart + (BitVec.setWidth 32 (0 : Addr)).signExtend 64 ≤ rg.rgEnd := by
    simpa using hbelow.1
  exact fitLoop_eq_none_iff.mp hloop rg hrg hfit

/-- The pages that a growth brings begin where the area has ended. -/
theorem growPairs_fst (k : Krnl m) (vma : VmArea) {caller : Caller} {size : Addr}
    (hcan : CanExtend k caller size) :
    (growPairs k vma caller size).map Prod.fst = newPages vma.vmEnd (growCount size) := by
  rw [growPairs, if_pos hcan.1, framePairs_fst _ hcan.2]

/-- An allocation that the growth covers keeps the invariant. -/
theorem Backing.grow (h : Backing k vma) {size : Addr} (hsize : size.toNat < 2 ^ 31)
    {freerg : List VmRg}
    (hget : getFreeVmrgArea vma.vmFreergList (size.setWidth 32) = (none, freerg))
    {caller : Caller} (hsbrk : vma.sbrk.toNat < 2 ^ 31)
    (hcan : CanExtend k caller size)
    (hcover : vma.sbrk.toNat + size.toNat ≤ vma.vmEnd.toNat + (growSize size).toNat)
    (i : Fin maxSymtblSz) :
    Backing (k.grow vma caller i size freerg)
      { vma with
        vmEnd := vma.vmEnd + growSize size
        sbrk := vma.sbrk + size
        vmFreergList := freerg } := by
  have halloc := h.alloc.grow hsbrk hsize hget caller i
  have hpos := h.size_pos hget
  have hend := h.vmEnd_le
  have haligned := h.aligned
  have hgrow := growSize_toNat hsize
  have hcount := growCount_eq hsize
  have hend' : (vma.vmEnd + growSize size).toNat =
      vma.vmEnd.toNat + (growSize size).toNat := by
    rw [BitVec.toNat_add, hgrow]
    omega
  have hsbrk' : (vma.sbrk + size).toNat = vma.sbrk.toNat + size.toNat := by
    rw [BitVec.toNat_add]
    omega
  rw [growEnd, if_pos hcan.1] at halloc
  refine ⟨halloc, ?_, ?_, ?_, ?_, ?_⟩
  · obtain ⟨rfl, -⟩ := getFreeVmrgArea_eq_none hget h.alloc.start_ne
    exact h.nonempty
  · rw [hend', hsbrk']
    exact hcover
  · rw [hend', hsbrk', hgrow]
    omega
  · rw [hend', hgrow]
    omega
  · intro p hp
    rw [entered_grow, growPairs_fst k vma hcan, List.mem_append]
    by_cases hold : p < vma.vmEnd.toNat / 4096
    · exact Or.inr (h.entered p hold)
    · refine Or.inl (List.mem_reverse.mpr (List.mem_map.mpr
        ⟨p - vma.vmEnd.toNat / 4096, ?_, ?_⟩))
      · rw [List.mem_range, hcount]
        rw [hend', hgrow] at hp
        omega
      · rw [pageAddr_shift (by omega) haligned]
        · congr 1
          omega
        · rw [hend', hgrow] at hp
          omega

/-- A page access does not touch the area. -/
theorem Backing.page (h : Backing k vma) {pgn : Addr} {res : Option Addr}
    (hpage : PageStep k pgn res k') : Backing k' vma :=
  ⟨h.alloc.page hpage, h.nonempty, h.sbrk_le, h.vmEnd_le, h.aligned,
    hpage.frame.2.2.1 ▸ h.entered⟩

/-- The calls of the instructions, with allocations that are covered. -/
def CoveredCall (k : Krnl m) (call : MemCall) (_ : Krnl m) : Prop :=
  match call with
  | .alloc caller rgid size => MemCall.InRange (.alloc caller rgid size) ∧
      ∀ vma ∈ k.mm.mmap, Covered k vma caller size
  | _ => True

/-- Every covered instruction keeps the invariant. -/
theorem Backing.step (h : Backing k vma) {call : MemCall} {a : Answer}
    (hcall : CoveredCall k call k') (hstep : MemStep k vma call a k') :
    ∃ vma', Backing k' vma' := by
  cases hstep with
  | hit hindex hget =>
      obtain ⟨halloc, -⟩ := h.alloc.hit hcall.1.2.2 hget _
      obtain ⟨_, _, _, _, _, _, _, _, _, _, hne⟩ :=
        fitLoop_eq_some (getFreeVmrgArea_eq_some hget)
      exact ⟨_, halloc, hne, h.sbrk_le, h.vmEnd_le, h.aligned, h.entered⟩
  | grow hindex hget =>
      rcases hcall.2 vma (by rw [h.alloc.area.mmap]; simp) with
        hfits | ⟨hsbrk, hcan, hcover⟩
      · exact absurd hfits (not_fits_of_none hget)
      · exact ⟨_, h.grow hcall.1.2.2 hget hsbrk hcan hcover _⟩
  | freed hindex hlive =>
      exact ⟨_, h.alloc.freed _, List.cons_ne_nil _ _, h.sbrk_le, h.vmEnd_le, h.aligned,
        h.entered⟩
  | notFreed => exact ⟨vma, h⟩
  | rejected => exact ⟨vma, h⟩
  | failed _ _ hpage => exact ⟨vma, h.page hpage⟩
  | read _ hpage => exact ⟨vma, h.page hpage⟩
  | written _ hpage =>
      have hb := h.page hpage
      exact ⟨vma, hb.alloc.poke _ _, hb.nonempty, hb.sbrk_le, hb.vmEnd_le, hb.aligned,
        hb.entered⟩

/-! ## Sound allocations -/

/-- What a caller relies on: when `__alloc` answers 0, the region ends at the limit of
the area or below, and its pages have been entered in the page table; when the kernel
cannot serve the request, `__alloc` answers -1, and the regions, `sbrk` and the limit
are unchanged. -/
def AllocSound (k : Krnl m) (vma : VmArea) (caller : Caller) (i : Fin maxSymtblSz)
    (size : Addr) : Prop :=
  ∀ a k', (MemCall.alloc caller (i : Nat) size).run k = some (a, k') →
    (a.stat = 0 → ∀ vma' ∈ k'.mm.mmap,
      (k'.mm.symrgtbl i).rgStart.toNat + size.toNat ≤ vma'.vmEnd.toNat ∧
      ∀ va : Nat, (k'.mm.symrgtbl i).rgStart.toNat ≤ va →
        va < (k'.mm.symrgtbl i).rgStart.toNat + size.toNat →
          BitVec.ofNat 64 (va / 4096) ∈ k'.mm.entered) ∧
    (¬ Fits vma size → ¬ CanExtend k caller size →
      a.stat = -1 ∧ k'.mm.symrgtbl = k.mm.symrgtbl ∧
      ∀ vma' ∈ k'.mm.mmap, vma'.sbrk = vma.sbrk ∧ vma'.vmEnd = vma.vmEnd)

/-- The call comes back. -/
theorem alloc_some (harea : OneArea k vma) (caller : Caller) (i : Fin maxSymtblSz)
    (size : Addr) :
    ∃ a k', (MemCall.alloc caller (i : Nat) size).run k = some (a, k') := by
  cases hget : getFreeVmrgArea vma.vmFreergList (size.setWidth 32) with
  | mk rgnode freerg =>
      cases rgnode with
      | some rg =>
          refine ⟨⟨0, none⟩, k.hit vma i rg freerg, ?_⟩
          rw [MemCall.run, alloc_eq_hit harea caller (symIndex_val i) hget]
          rfl
      | none =>
          refine ⟨⟨0, none⟩, k.grow vma caller i size freerg, ?_⟩
          rw [MemCall.run, alloc_eq_grow harea caller (symIndex_val i) hget]
          rfl

/-- A break that is negative as an `int` becomes an address of the upper half. -/
theorem VmArea.oldSbrk_large (hlo : 2 ^ 31 ≤ vma.sbrk.toNat)
    (hhi : vma.sbrk.toNat < 2 ^ 32) : 2 ^ 63 ≤ vma.oldSbrk.toNat := by
  have hlow : (vma.sbrk.setWidth 32).toNat = vma.sbrk.toNat := by
    rw [BitVec.toNat_setWidth]
    omega
  have hmsb : (vma.sbrk.setWidth 32).msb = true := by
    rw [BitVec.msb_eq_true_iff_two_mul_ge]
    omega
  rw [VmArea.oldSbrk, BitVec.toNat_signExtend, hmsb, if_pos rfl]
  omega

/-- The pages of the area below its limit have been entered. -/
theorem Backing.mem_entered (h : Backing k vma) {va : Nat}
    (hva : va < vma.vmEnd.toNat) : BitVec.ofNat 64 (va / 4096) ∈ k.mm.entered := by
  have haligned := h.aligned
  exact h.entered _ (by omega)

/-- An allocation that nothing covers is not sound. -/
theorem Backing.covered_of_sound (h : Backing k vma) {caller : Caller}
    {i : Fin maxSymtblSz} {size : Addr} (hsize : size.toNat < 2 ^ 31)
    (hsound : AllocSound k vma caller i size) : Covered k vma caller size := by
  obtain ⟨a, k', hcall⟩ := alloc_some h.alloc.area caller i size
  obtain ⟨hbacked, hfailed⟩ := hsound a k' hcall
  cases run_step h.alloc.area hcall with
  | rejected htarget => cases htarget
  | failed htarget => cases htarget
  | hit hindex hget => exact Or.inl (by simp [Fits, hget])
  | grow hindex hget =>
      rw [symIndex_val] at hindex
      cases hindex
      -- the call answers 0, so that the kernel can serve the request
      have hcan : CanExtend k caller size := by
        by_contra hcan
        have hstat := (hfailed (not_fits_of_none hget) hcan).1
        cases hstat
      have hle := (hbacked rfl _ (List.mem_singleton_self _)).1
      have hend := h.vmEnd_le
      have hlt := h.alloc.sbrk_lt
      have hgrow := growSize_toNat hsize
      simp only [Krnl.grow, Function.update_self, growEnd, if_pos hcan.1] at hle
      rw [BitVec.toNat_add, hgrow] at hle
      by_cases hsbrk : vma.sbrk.toNat < 2 ^ 31
      · rw [VmArea.oldSbrk_eq hsbrk] at hle
        refine Or.inr ⟨hsbrk, hcan, ?_⟩
        rw [hgrow]
        omega
      · have hlarge := VmArea.oldSbrk_large (Nat.not_lt.mp hsbrk) hlt
        omega

/-- A covered allocation is sound. -/
theorem Backing.sound_of_covered (h : Backing k vma) {caller : Caller}
    {i : Fin maxSymtblSz} {size : Addr} (hsize : size.toNat < 2 ^ 31)
    (hcover : Covered k vma caller size) : AllocSound k vma caller i size := by
  intro a k' hcall
  cases run_step h.alloc.area hcall with
  | rejected htarget => cases htarget
  | failed htarget => cases htarget
  | hit hindex hget =>
      rename_i rg freerg
      rw [symIndex_val] at hindex
      cases hindex
      obtain ⟨halloc, hlen⟩ := h.alloc.hit hsize hget i
      have hbelow := halloc.regions.sym_below i
      have hsbrk := h.sbrk_le
      simp only [Krnl.hit, Function.update_self] at hbelow
      have hle : rg.rgStart.toNat + size.toNat ≤ vma.vmEnd.toNat := by
        unfold VmRg.Below at hbelow
        bv_omega
      constructor
      · rintro - vma' hvma'
        obtain rfl := List.mem_singleton.mp hvma'
        simp only [Krnl.hit, Function.update_self]
        exact ⟨hle, fun va _ hva => h.mem_entered (by omega)⟩
      · intro hfits _
        exact absurd (show Fits vma size by simp [Fits, hget]) hfits
  | grow hindex hget =>
      rw [symIndex_val] at hindex
      cases hindex
      rcases hcover with hfits | ⟨hsbrk, hcan, hcover⟩
      · exact absurd hfits (not_fits_of_none hget)
      · have hb := h.grow hsize hget hsbrk hcan hcover i
        have hle := hb.sbrk_le
        simp only at hle
        rw [BitVec.toNat_add] at hle
        constructor
        · rintro - vma' hvma'
          obtain rfl := List.mem_singleton.mp hvma'
          simp only [Krnl.grow, Function.update_self, VmArea.oldSbrk_eq hsbrk, growEnd,
            if_pos hcan.1]
          refine ⟨by omega, fun va _ hva => hb.mem_entered ?_⟩
          simp only
          omega
        · intro _ hcannot
          exact absurd hcan hcannot

/-- In every run in which the growth covers what it is asked for, the limit of the area
is not exceeded, and a further allocation is sound exactly when the free list or the
growth covers it. -/
theorem alloc_sound_iff (b : Boot) (hstale : b.staleFreerg = [])
    {es : List (MemCall × Answer)} {k : Krnl m}
    (hrun : Lts.Run (Stepped CoveredCall) b.krnl es k) :
    ∃ vma, k.mm.mmap = [vma] ∧ vma.sbrk ≤ vma.vmEnd ∧
      ∀ caller i (size : Addr), size.toNat < 2 ^ 31 →
        (AllocSound k vma caller i size ↔ Covered k vma caller size) := by
  have hinv : ∃ vma, Backing k vma := by
    apply hrun.invariant ⟨_, backing_boot b hstale⟩
    rintro k e k' ⟨vma, hb⟩ ⟨hcovered, hcall⟩
    exact hb.step hcovered (run_step hb.alloc.area hcall)
  obtain ⟨vma, hb⟩ := hinv
  exact ⟨vma, hb.alloc.area.mmap, hb.sbrk_le, fun caller i size hsize =>
    ⟨hb.covered_of_sound hsize, hb.sound_of_covered hsize⟩⟩

instance (k k' : Krnl m) (call : MemCall) : Decidable (CoveredCall k call k') :=
  match call with
  | .alloc caller _ size =>
      have := List.decidableBAll (fun vma => Covered k vma caller size) k.mm.mmap
      instDecidableAnd
  | .free _ => instDecidableTrue
  | .read _ _ => instDecidableTrue
  | .write _ _ _ => instDecidableTrue

/-- After 1000 bytes have been allocated, 3000 more are covered and 8000 are not. -/
theorem alloc_sound_iff_second :
    ∃ (es : List (MemCall × Answer)) (k : Krnl countingMalloc),
      Lts.Run (Stepped CoveredCall) smallBoot.krnl es k ∧
      ∃ vma, k.mm.mmap = [vma] ∧ vma.sbrk ≤ vma.vmEnd ∧
        AllocSound k vma soleCaller 1 3000 ∧ ¬ AllocSound k vma soleCaller 1 8000 := by
  obtain ⟨es, k, hrun, hobs⟩ := Lts.record_observe
    CoveredCall (fun (k : Krnl countingMalloc) call => call.run k) smallBoot.krnl
    [.alloc soleCaller 0 1000]
    (fun _ k => k.mm.mmap.map fun vma => (decide (Covered k vma soleCaller 3000),
      decide (Covered k vma soleCaller 8000)))
    (v := [(true, false)]) (by decide +kernel)
  obtain ⟨vma, hmmap, hle, hiff⟩ := alloc_sound_iff smallBoot rfl hrun
  rw [hmmap] at hobs
  simp only [List.map_cons, List.map_nil, List.cons.injEq, Prod.mk.injEq,
    decide_eq_true_eq, decide_eq_false_iff_not, and_true] at hobs
  exact ⟨es, k, hrun, vma, hmmap, hle, (hiff _ _ _ (by decide)).mpr hobs.1,
    fun hsound => hobs.2 ((hiff _ _ _ (by decide)).mp hsound)⟩

/-- Already the first allocation is not sound when it is larger than a page: 5000 bytes
end above the limit 4096. -/
theorem not_alloc_sound :
    ¬ ∀ (b : Boot), b.staleFreerg = [] → ∀ (es : List (MemCall × Answer))
      (k : Krnl countingMalloc), Lts.Run (Stepped fun _ _ _ => True) b.krnl es k →
        ∃ vma, k.mm.mmap = [vma] ∧ vma.sbrk ≤ vma.vmEnd ∧
          ∀ caller i (size : Addr), size.toNat < 2 ^ 31 →
            AllocSound k vma caller i size := by
  intro hclaim
  obtain ⟨vma, hmmap, -, hsound⟩ := hclaim smallBoot rfl [] smallBoot.krnl .nil
  have huncovered : ¬ Covered (smallBoot.krnl : Krnl countingMalloc)
      ⟨0, 0, 0, 0, [⟨0, 0⟩]⟩ soleCaller 5000 := by decide +kernel
  obtain rfl : vma = ⟨0, 0, 0, 0, [⟨0, 0⟩]⟩ :=
    (List.singleton_inj.mp (hmmap : [_] = [vma])).symm
  have hb := backing_boot (m := countingMalloc) smallBoot rfl
  exact huncovered
    (hb.covered_of_sound (by decide) (hsound soleCaller 0 5000 (by decide)))

end Memory
end Hdh
