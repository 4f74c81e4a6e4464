import Hdh.Library.Runs
import Hdh.Memory.Mapping

/-!
# The region allocator

`__alloc` and `__free` on the one area, called by any processes in any order.  The
invariant `Allocated` says that the regions of the table and of the free list are
disjoint and lie below `sbrk`; each way in which an instruction can change the
regions has a lemma.

Main results:

- Theorems `Allocated.hit`, `Allocated.grow` and `Allocated.freed`: what the three
  kinds of steps do to the regions.
- Theorem `regions_disjoint`: no memory is handed out twice.
-/

namespace Hdh
namespace Memory

variable {m : Radix.Malloc Nat 0} {k k' : Krnl m} {vma : VmArea}

/-- The invariant of the allocator. -/
structure Allocated (k : Krnl m) (vma : VmArea) : Prop where
  area : OneArea k vma
  regions : RegionsOk k.mm.symrgtbl vma.vmFreergList vma.sbrk
  sbrk_lt : vma.sbrk.toNat < 2 ^ 32

/-- The calls on indices of the table, with sizes that are not negative as an `int`. -/
def MemCall.InRange : MemCall → Prop
  | .alloc _ rgid size => 0 ≤ rgid ∧ rgid < 30 ∧ size.toNat < 2 ^ 31
  | .free rgid => 0 ≤ rgid ∧ rgid < 30
  | .read rgid _ => 0 ≤ rgid ∧ rgid < 30
  | .write rgid _ _ => 0 ≤ rgid ∧ rgid < 30

instance (call : MemCall) : Decidable call.InRange := by
  cases call <;> exact inferInstanceAs (Decidable (_ ∧ _))

/-- `sbrk` is not negative as an `int`. -/
def Krnl.SbrkSmall (k : Krnl m) : Prop :=
  ∀ vma ∈ k.mm.mmap, vma.sbrk.toNat < 2 ^ 31

instance (k : Krnl m) : Decidable k.SbrkSmall :=
  inferInstanceAs (Decidable (∀ vma ∈ k.mm.mmap, vma.sbrk.toNat < 2 ^ 31))

/-- The area begins at 0. -/
theorem sbrkSmall_boot (b : Boot) : (b.krnl : Krnl m).SbrkSmall := by
  intro vma hvma
  rw [List.mem_singleton.mp hvma]
  exact Nat.two_pow_pos 31

/-- The bound on the areas is one on `sbrk`. -/
theorem OneArea.sbrk_lt (h : OneArea k vma) (hsmall : k.SbrkSmall) :
    vma.sbrk.toNat < 2 ^ 31 :=
  hsmall vma (by rw [h.mmap]; exact List.mem_singleton_self vma)

/-- A size below `2 ^ 31` is the same as an `int`. -/
theorem toNat_setWidth_size {size : Addr} (hsize : size.toNat < 2 ^ 31) :
    (size.setWidth 32).toNat = size.toNat := by
  rw [BitVec.toNat_setWidth]
  omega

/-- So is `sbrk`. -/
theorem VmArea.oldSbrk_eq (h : vma.sbrk.toNat < 2 ^ 31) : vma.oldSbrk = vma.sbrk := by
  have hlow := toNat_setWidth_size h
  apply BitVec.eq_of_toNat_eq
  rw [VmArea.oldSbrk, signExtend_of_lt (by omega), hlow]

/-- There are no regions at the beginning but an empty one. -/
theorem allocated_boot (b : Boot) (hstale : b.staleFreerg = []) :
    Allocated (b.krnl : Krnl m) ⟨0, 0, 0, 0, [⟨0, 0⟩]⟩ := by
  constructor
  · have harea := oneArea_boot (m := m) b
    rwa [hstale] at harea
  · exact regionsOk_init
  · decide

/-- No free region begins at the value that stands for none. -/
theorem Allocated.start_ne (h : Allocated k vma) :
    ∀ r ∈ vma.vmFreergList, r.rgStart ≠ -1 := by
  intro r hr
  have hbelow := h.regions.free_below r hr
  have hlt := h.sbrk_lt
  unfold VmRg.Below at hbelow
  bv_omega

/-- A free region is handed out; it has the size asked for. -/
theorem Allocated.hit (h : Allocated k vma) {size : Addr} (hsize : size.toNat < 2 ^ 31)
    {rg : VmRg} {freerg : List VmRg}
    (hget : getFreeVmrgArea vma.vmFreergList (size.setWidth 32) = (some rg, freerg))
    (i : Fin maxSymtblSz) :
    Allocated (k.hit vma i rg freerg) { vma with vmFreergList := freerg } ∧
      (rg.rgEnd - rg.rgStart).toNat = size.toNat := by
  have hlow := toNat_setWidth_size hsize
  have hlt := h.sbrk_lt
  obtain ⟨hregions, hlen⟩ :=
    h.regions.hit (by omega) (by rw [hlow]; exact hsize) hget i
  constructor
  · exact ⟨⟨rfl, h.area.vmId, h.area.random⟩, hregions, h.sbrk_lt⟩
  · rw [hlen, hlow]

/-- New space is handed out: the region begins at the old `sbrk` and ends at the new
one, and the free list is as before. -/
theorem Allocated.grow (h : Allocated k vma) (hsbrk : vma.sbrk.toNat < 2 ^ 31)
    {size : Addr} (hsize : size.toNat < 2 ^ 31) {freerg : List VmRg}
    (hget : getFreeVmrgArea vma.vmFreergList (size.setWidth 32) = (none, freerg))
    (caller : Caller) (i : Fin maxSymtblSz) :
    Allocated (k.grow vma caller i size freerg)
      { vma with
        vmEnd := growEnd vma caller size
        sbrk := vma.sbrk + size
        vmFreergList := freerg } := by
  obtain ⟨rfl, -⟩ := getFreeVmrgArea_eq_none hget h.start_ne
  have hold := VmArea.oldSbrk_eq hsbrk
  constructor
  · refine ⟨?_, h.area.vmId, (growMram_frame k caller size).1.trans h.area.random⟩
    rw [← hold]
    rfl
  · have hregions : RegionsOk
        (Function.update k.mm.symrgtbl i ⟨vma.sbrk, vma.sbrk + size⟩)
        vma.vmFreergList (vma.sbrk + size) := h.regions.grow (by omega) i
    rw [Krnl.grow, hold]
    exact hregions
  · simp only
    bv_omega

/-- A region goes to the free list. -/
theorem Allocated.freed (h : Allocated k vma) (i : Fin maxSymtblSz) :
    Allocated (k.freed vma i)
      { vma with vmFreergList := k.mm.symrgtbl i :: vma.vmFreergList } :=
  ⟨⟨rfl, h.area.vmId, h.area.random⟩, h.regions.free i, h.sbrk_lt⟩

/-- A page access does not touch the regions. -/
theorem Allocated.page (h : Allocated k vma) {pgn : Addr} {res : Option Addr}
    (hpage : PageStep k pgn res k') : Allocated k' vma := by
  obtain ⟨hmmap, hsym, -, hmram⟩ := hpage.frame
  exact ⟨⟨hmmap.trans h.area.mmap, h.area.vmId, hmram ▸ h.area.random⟩,
    hsym ▸ h.regions, h.sbrk_lt⟩

/-- To write a byte to RAM allocates nothing. -/
theorem Allocated.poke (h : Allocated k vma) (phyaddr : Addr) (value : Byte) :
    Allocated (k.poke phyaddr value) vma :=
  ⟨⟨h.area.mmap, h.area.vmId, h.area.random⟩, h.regions, h.sbrk_lt⟩

/-- Every instruction keeps the invariant. -/
theorem Allocated.step (h : Allocated k vma) {call : MemCall} {a : Answer}
    (hrange : call.InRange) (hsbrk : vma.sbrk.toNat < 2 ^ 31)
    (hstep : MemStep k vma call a k') : ∃ vma', Allocated k' vma' := by
  cases hstep with
  | hit hindex hget => exact ⟨_, (h.hit hrange.2.2 hget _).1⟩
  | grow hindex hget => exact ⟨_, h.grow hsbrk hrange.2.2 hget _ _⟩
  | freed hindex hlive => exact ⟨_, h.freed _⟩
  | notFreed => exact ⟨vma, h⟩
  | rejected => exact ⟨vma, h⟩
  | failed _ _ hpage => exact ⟨vma, h.page hpage⟩
  | read _ hpage => exact ⟨vma, h.page hpage⟩
  | written _ hpage => exact ⟨vma, (h.page hpage).poke _ _⟩

/-- The steps of any processes, as long as `sbrk` stays small. -/
def InBounds (_ : Krnl m) (call : MemCall) (k' : Krnl m) : Prop :=
  call.InRange ∧ k'.SbrkSmall

/-- The region allocator never hands out overlapping memory: after any instructions
of any processes, all regions of the table and of the free list have their bounds in
order, lie below `sbrk`, and no two of them have an address in common. -/
theorem regions_disjoint (b : Boot) (hstale : b.staleFreerg = [])
    {es : List (MemCall × Answer)} {k : Krnl m}
    (hrun : Lts.Run (Stepped InBounds) b.krnl es k) :
    ∃ vma, k.mm.mmap = [vma] ∧
      RegionsOk k.mm.symrgtbl vma.vmFreergList vma.sbrk := by
  have hinv : (∃ vma, Allocated k vma) ∧ k.SbrkSmall := by
    apply hrun.invariant
    · exact ⟨⟨_, allocated_boot b hstale⟩, sbrkSmall_boot b⟩
    · rintro k e k' ⟨⟨vma, halloc⟩, hsmall⟩ ⟨⟨hrange, hsmall'⟩, hcall⟩
      exact ⟨halloc.step hrange (halloc.area.sbrk_lt hsmall)
        (run_step halloc.area hcall), hsmall'⟩
  obtain ⟨⟨vma, halloc⟩, -⟩ := hinv
  exact ⟨vma, halloc.area.mmap, halloc.regions⟩

/-- Eight frames of RAM and sixteen of swap. -/
def smallBoot : Boot where
  memramsz := 2048
  memswpsz := 4096
  memramsz_lt := by decide
  memswpsz_lt := by decide
  staleFreerg := []
  staleMram := []
  staleMswp := []

/-- The only process, which is running. -/
def soleCaller : Caller := ⟨1, [1], [], []⟩

instance (k k' : Krnl m) (call : MemCall) : Decidable (InBounds k call k') :=
  inferInstanceAs (Decidable (_ ∧ _))

/-- A freed region of 100 bytes is split for a request of 30. -/
theorem regions_disjoint_split :
    ∃ (es : List (MemCall × Answer)) (k : Krnl countingMalloc),
      Lts.Run (Stepped InBounds) smallBoot.krnl es k ∧
      (k.mm.symrgtbl 1 = ⟨100, 150⟩ ∧ k.mm.symrgtbl 2 = ⟨0, 30⟩) ∧
      ∃ vma, k.mm.mmap = [vma] ∧
        RegionsOk k.mm.symrgtbl vma.vmFreergList vma.sbrk := by
  obtain ⟨es, k, hrun, hobs⟩ := Lts.record_observe
    InBounds (fun (k : Krnl countingMalloc) call => call.run k) smallBoot.krnl
    [.alloc soleCaller 0 100, .alloc soleCaller 1 50, .free 0, .alloc soleCaller 2 30]
    (fun _ k => (k.mm.symrgtbl 1, k.mm.symrgtbl 2))
    (v := (⟨100, 150⟩, ⟨0, 30⟩)) (by decide +kernel)
  exact ⟨es, k, hrun, Prod.mk.inj hobs, regions_disjoint smallBoot rfl hrun⟩

end Memory
end Hdh
