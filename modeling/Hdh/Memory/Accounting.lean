import Hdh.Memory.Allocator

/-!
# Every byte is accounted for

Space below `sbrk` belongs to a region of the table or to a free region.  `__alloc`
writes its new region into the table without looking at what the index held before: the
region that was there is lost, since it is not enlisted like one that `__free` clears.

Main results:

- Theorem `fitLoop_has_iff`: the search for a free region loses no byte and makes none.
- Theorem `accounted_step_iff`: which instructions keep every byte accounted for.
- Theorem `no_leak`: no byte is lost as long as allocations use empty indices.
-/

namespace Hdh
namespace Memory

variable {m : Radix.Malloc Nat 0} {k k' : Krnl m} {vma : VmArea}
  {sym : SymRgTbl} {freerg freerg' : List VmRg} {sbrk : Addr}

/-- The byte lies in the region. -/
def VmRg.Has (r : VmRg) (a : Nat) : Prop :=
  r.rgStart.toNat ≤ a ∧ a < r.rgEnd.toNat

/-- Every byte below `sbrk` lies in a region of the table or in a free one. -/
def Accounted (sym : SymRgTbl) (freerg : List VmRg) (sbrk : Addr) : Prop :=
  ∀ a < sbrk.toNat, (∃ i, (sym i).Has a) ∨ ∃ r ∈ freerg, r.Has a

/-- The same for the one area of a kernel. -/
def Krnl.Accounted (k : Krnl m) : Prop :=
  ∃ vma, k.mm.mmap = [vma] ∧ Memory.Accounted k.mm.symrgtbl vma.vmFreergList vma.sbrk

/-- An allocation is for an index whose region is empty. -/
def AllocEmpty (k : Krnl m) : MemCall → Prop
  | .alloc _ rgid _ => ∀ i, symIndex rgid = some i → (k.mm.symrgtbl i).Empty
  | _ => True

theorem Krnl.accounted_iff (hmmap : k.mm.mmap = [vma]) :
    k.Accounted ↔ Memory.Accounted k.mm.symrgtbl vma.vmFreergList vma.sbrk := by
  constructor
  · rintro ⟨vma', hmmap', h⟩
    obtain rfl := List.singleton_inj.mp (hmmap.symm.trans hmmap')
    exact h
  · exact fun h => ⟨vma, hmmap, h⟩

theorem VmRg.not_has_of_empty {r : VmRg} (h : r.Empty) (a : Nat) : ¬ r.Has a := by
  unfold Empty at h
  unfold Has
  rw [BitVec.le_def] at h
  omega

/-- A region that is not empty has its first byte. -/
theorem VmRg.has_start {r : VmRg} (h : ¬ r.Empty) : r.Has r.rgStart.toNat := by
  unfold Empty at h
  rw [BitVec.le_def] at h
  exact ⟨le_rfl, by omega⟩

theorem VmRg.Apart.not_has {r s : VmRg} (h : r.Apart s) {a : Nat} (hr : r.Has a) :
    ¬ s.Has a := by
  unfold Apart Empty at h
  unfold Has at hr ⊢
  simp only [BitVec.le_def] at h
  omega

/-! ## The search for a free region -/

instance (r : VmRg) (a : Nat) : Decidable (r.Has a) :=
  inferInstanceAs (Decidable (_ ∧ _))

/-- In how many regions of a list a byte lies. -/
def hasCount (l : List VmRg) (a : Nat) : Nat :=
  l.countP fun r => decide (r.Has a)

theorem hasCount_append (l l' : List VmRg) (a : Nat) :
    hasCount (l ++ l') a = hasCount l a + hasCount l' a :=
  List.countP_append

theorem hasCount_cons (r : VmRg) (l : List VmRg) (a : Nat) :
    hasCount (r :: l) a = hasCount l a + if r.Has a then 1 else 0 := by
  simp [hasCount, List.countP_cons]

theorem hasCount_pos_iff {l : List VmRg} {a : Nat} :
    0 < hasCount l a ↔ ∃ r ∈ l, r.Has a := by
  simp [hasCount, List.countP_pos_iff]

/-- A region that has been chosen is cut into two parts. -/
theorem hasCount_leftOver {size : Addr} {rg : VmRg}
    (hfit : rg.rgStart + size ≤ rg.rgEnd) (hsize : rg.rgStart ≤ rg.rgStart + size)
    (post : List VmRg) (a : Nat) :
    hasCount (⟨rg.rgStart, rg.rgStart + size⟩ :: leftOver size rg post) a =
      hasCount [rg] a := by
  rw [BitVec.le_def] at hfit hsize
  have hnone : hasCount [] a = 0 := rfl
  have hempty : ¬ VmRg.Has ⟨rg.rgEnd, rg.rgEnd⟩ a :=
    VmRg.not_has_of_empty (BitVec.le_refl _) a
  unfold leftOver
  split_ifs with hmore hlast
  · -- space is left
    rw [BitVec.lt_def] at hmore
    have hsplit : VmRg.Has ⟨rg.rgStart, rg.rgStart + size⟩ a ∨
        VmRg.Has ⟨rg.rgStart + size, rg.rgEnd⟩ a ↔ rg.Has a := by
      unfold VmRg.Has
      simp only
      omega
    have hdisjoint : VmRg.Has ⟨rg.rgStart, rg.rgStart + size⟩ a →
        ¬ VmRg.Has ⟨rg.rgStart + size, rg.rgEnd⟩ a := by
      unfold VmRg.Has
      simp only
      omega
    simp only [hasCount_cons, hnone, ← hsplit]
    split_ifs <;> simp_all
  all_goals
    have hexact : rg.rgStart + size = rg.rgEnd := by
      rw [BitVec.lt_def] at hmore
      exact BitVec.eq_of_toNat_eq (by omega)
    simp only [hasCount_cons, hnone, hexact, hempty, if_false, Nat.add_zero]

/-- No byte is lost, and none is made: a byte lies in as many free regions as before, when
the region handed out is counted in. -/
theorem fitLoop_hasCount {size : Addr} {l l' : List VmRg} {newrg : VmRg}
    (h : fitLoop size l = some (newrg, l'))
    (hsize : ∀ r ∈ l, r.rgStart ≤ r.rgStart + size) (a : Nat) :
    hasCount (newrg :: l') a = hasCount l a := by
  obtain ⟨pre, rg, post, rfl, -, hfit, rfl, rfl⟩ := fitLoop_split h
  have hcut := hasCount_leftOver hfit (hsize rg (by simp)) post a
  rw [← List.singleton_append, hasCount_append] at hcut
  rw [← List.singleton_append (l := pre ++ _ ++ post), ← List.singleton_append (l := post),
    hasCount_append, hasCount_append, hasCount_append, hasCount_append, hasCount_append]
  omega

/-- A byte is in the region handed out or in one that is left if and only if it was in a
free region before. -/
theorem fitLoop_has_iff {size : Addr} {l l' : List VmRg} {newrg : VmRg}
    (h : fitLoop size l = some (newrg, l'))
    (hsize : ∀ r ∈ l, r.rgStart ≤ r.rgStart + size) (a : Nat) :
    (newrg.Has a ∨ ∃ r ∈ l', r.Has a) ↔ ∃ r ∈ l, r.Has a := by
  have hiff : 0 < hasCount (newrg :: l') a ↔ 0 < hasCount l a := by
    rw [fitLoop_hasCount h hsize]
  rwa [hasCount_pos_iff, hasCount_pos_iff, List.exists_mem_cons_iff] at hiff

/-! ## What each step does -/

/-- A byte of a region of the table is in no other region. -/
theorem RegionsOk.only (h : RegionsOk sym freerg sbrk) {i : Fin maxSymtblSz} {a : Nat}
    (ha : (sym i).Has a) :
    (∀ j, j ≠ i → ¬ (sym j).Has a) ∧ ¬ ∃ r ∈ freerg, r.Has a := by
  constructor
  · intro j hji
    exact (h.sym_apart i j hji.symm).not_has ha
  · rintro ⟨r, hr, hhas⟩
    exact (h.cross i r hr).not_has ha hhas

/-- The bytes of the table after a region has been written into it. -/
theorem has_update_iff (sym : SymRgTbl) (i : Fin maxSymtblSz) (r : VmRg) (a : Nat) :
    (∃ j, (Function.update sym i r j).Has a) ↔ r.Has a ∨ ∃ j, j ≠ i ∧ (sym j).Has a := by
  constructor
  · rintro ⟨j, hj⟩
    by_cases hji : j = i
    · rw [hji, Function.update_self] at hj
      exact Or.inl hj
    · rw [Function.update_of_ne hji] at hj
      exact Or.inr ⟨j, hji, hj⟩
  · rintro (hr | ⟨j, hji, hj⟩)
    · exact ⟨i, by rwa [Function.update_self]⟩
    · exact ⟨j, by rwa [Function.update_of_ne hji]⟩

/-- A region is written into the table.  The bytes stay accounted for if and only if the
index was empty, when the other free bytes stay where they were or become part of the
new region. -/
theorem Accounted.set_iff (h : Accounted sym freerg sbrk) (hok : RegionsOk sym freerg sbrk)
    (i : Fin maxSymtblSz) {r : VmRg} {sbrk' : Addr} (hle : sbrk.toNat ≤ sbrk'.toNat)
    (hnew : ∀ a < sbrk'.toNat, sbrk.toNat ≤ a → r.Has a)
    (hfree : ∀ a < sbrk.toNat,
      (r.Has a ∨ ∃ s ∈ freerg', s.Has a) ↔ ∃ s ∈ freerg, s.Has a) :
    Accounted (Function.update sym i r) freerg' sbrk' ↔ (sym i).Empty := by
  constructor
  · intro hacc
    by_contra hlive
    -- the first byte of the region that is overwritten is lost
    have hhas := VmRg.has_start hlive
    have hend := (hok.sym_below i).2
    rw [BitVec.le_def] at hend
    have hlt : (sym i).rgStart.toNat < sbrk.toNat := lt_of_lt_of_le hhas.2 hend
    obtain ⟨hother, hnot⟩ := hok.only hhas
    rcases hacc _ (lt_of_lt_of_le hlt hle) with hsym | hfreed
    · rcases (has_update_iff ..).mp hsym with hr | ⟨j, hji, hj⟩
      · exact hnot ((hfree _ hlt).mp (Or.inl hr))
      · exact hother j hji hj
    · exact hnot ((hfree _ hlt).mp (Or.inr hfreed))
  · intro hempty a ha
    rw [has_update_iff]
    by_cases hlow : a < sbrk.toNat
    · rcases h a hlow with ⟨j, hj⟩ | hs
      · have hji : j ≠ i := by
          rintro rfl
          exact VmRg.not_has_of_empty hempty a hj
        exact Or.inl (Or.inr ⟨j, hji, hj⟩)
      · exact ((hfree a hlow).mpr hs).imp_left Or.inl
    · exact Or.inl (Or.inl (hnew a ha (by omega)))

/-- A free region is handed out. -/
theorem Allocated.hit_accounted_iff (h : Allocated k vma) {size : Addr}
    (hsize : size.toNat < 2 ^ 31) {rg : VmRg}
    (hget : getFreeVmrgArea vma.vmFreergList (size.setWidth 32) = (some rg, freerg'))
    (i : Fin maxSymtblSz)
    (hacc : Accounted k.mm.symrgtbl vma.vmFreergList vma.sbrk) :
    (k.hit vma i rg freerg').Accounted ↔ (k.mm.symrgtbl i).Empty := by
  have hmmap : (k.hit vma i rg freerg').mm.mmap =
      [{ vma with vmFreergList := freerg' }] := rfl
  rw [Krnl.accounted_iff hmmap]
  have hext := signExtend_of_lt (x := size.setWidth 32)
    (by rw [toNat_setWidth_size hsize]; exact hsize)
  have hstart : ∀ r ∈ vma.vmFreergList,
      r.rgStart ≤ r.rgStart + (size.setWidth 32).signExtend 64 := by
    intro r hr
    have hbelow := h.regions.free_below r hr
    have hlt := h.sbrk_lt
    unfold VmRg.Below at hbelow
    bv_omega
  have hiff := fitLoop_has_iff (getFreeVmrgArea_eq_some hget) hstart
  exact hacc.set_iff h.regions i le_rfl (fun a ha hge => absurd ha (Nat.not_lt.mpr hge))
    fun a _ => hiff a

/-- New space is handed out. -/
theorem Allocated.grow_accounted_iff (h : Allocated k vma) (hsbrk : vma.sbrk.toNat < 2 ^ 31)
    {size : Addr} (hsize : size.toNat < 2 ^ 31)
    (hget : getFreeVmrgArea vma.vmFreergList (size.setWidth 32) = (none, freerg'))
    (caller : Caller) (i : Fin maxSymtblSz)
    (hacc : Accounted k.mm.symrgtbl vma.vmFreergList vma.sbrk) :
    (k.grow vma caller i size freerg').Accounted ↔ (k.mm.symrgtbl i).Empty := by
  obtain ⟨rfl, -⟩ := getFreeVmrgArea_eq_none hget h.start_ne
  have hsum : (vma.sbrk + size).toNat = vma.sbrk.toNat + size.toNat := by
    rw [BitVec.toNat_add]
    omega
  have hmmap : (k.grow vma caller i size vma.vmFreergList).mm.mmap = [{ vma with
      vmEnd := growEnd vma caller size
      sbrk := vma.oldSbrk + size
      vmFreergList := vma.vmFreergList }] := rfl
  rw [Krnl.accounted_iff hmmap]
  simp only [Krnl.grow, VmArea.oldSbrk_eq hsbrk]
  refine hacc.set_iff h.regions i (by omega) ?_ ?_
  · intro a ha hge
    exact ⟨hge, ha⟩
  · intro a ha
    have hnot : ¬ VmRg.Has ⟨vma.sbrk, vma.sbrk + size⟩ a := fun hr => absurd ha (by
      unfold VmRg.Has at hr
      simp only at hr
      omega)
    simp [hnot]

/-- A region of the table goes to the free list. -/
theorem Accounted.free (h : Accounted sym freerg sbrk) (i : Fin maxSymtblSz) :
    Accounted (Function.update sym i ⟨0, 0⟩) (sym i :: freerg) sbrk := by
  intro a ha
  rcases h a ha with ⟨j, hj⟩ | ⟨r, hr, hhas⟩
  · by_cases hji : j = i
    · exact Or.inr ⟨sym i, List.mem_cons_self .., hji ▸ hj⟩
    · exact Or.inl ⟨j, by rwa [Function.update_of_ne hji]⟩
  · exact Or.inr ⟨r, List.mem_cons_of_mem _ hr, hhas⟩

/-- A page access does not touch the regions. -/
theorem Krnl.Accounted.page (h : k.Accounted) {pgn : Addr} {res : Option Addr}
    (hpage : PageStep k pgn res k') : k'.Accounted := by
  obtain ⟨vma, hmmap, hacc⟩ := h
  exact ⟨vma, hpage.frame.1.trans hmmap, hpage.frame.2.1 ▸ hacc⟩

theorem Krnl.Accounted.poke (h : k.Accounted) (phyaddr : Addr) (value : Byte) :
    (k.poke phyaddr value).Accounted :=
  h

/-- A `READ` or a `WRITE` allocates nothing. -/
theorem allocEmpty_of_target {call : MemCall} {target : Int × Addr}
    (h : call.target = some target) : AllocEmpty k call := by
  rcases call.eq_of_target h with rfl | ⟨value, rfl⟩ <;> exact trivial

theorem allocEmpty_iff {caller : Caller} {rgid : Int} {size : Addr}
    {i : Fin maxSymtblSz} (hindex : symIndex rgid = some i) :
    AllocEmpty k (.alloc caller rgid size) ↔ (k.mm.symrgtbl i).Empty := by
  simp [AllocEmpty, hindex]

/-- Which instructions keep every byte accounted for. -/
theorem accounted_step_iff (h : Allocated k vma) (hacc : k.Accounted) {call : MemCall}
    {a : Answer} (hrange : call.InRange) (hsbrk : vma.sbrk.toNat < 2 ^ 31)
    (hstep : MemStep k vma call a k') : k'.Accounted ↔ AllocEmpty k call := by
  have harea := (Krnl.accounted_iff h.area.mmap).mp hacc
  cases hstep with
  | hit hindex hget =>
      rw [allocEmpty_iff hindex]
      exact h.hit_accounted_iff hrange.2.2 hget _ harea
  | grow hindex hget =>
      rw [allocEmpty_iff hindex]
      exact h.grow_accounted_iff hsbrk hrange.2.2 hget _ _ harea
  | freed => exact iff_of_true ⟨_, rfl, harea.free _⟩ trivial
  | notFreed => exact iff_of_true hacc trivial
  | rejected htarget => exact iff_of_true hacc (allocEmpty_of_target htarget)
  | failed htarget _ hpage =>
      exact iff_of_true (hacc.page hpage) (allocEmpty_of_target htarget)
  | read _ hpage => exact iff_of_true (hacc.page hpage) trivial
  | written _ hpage => exact iff_of_true ((hacc.page hpage).poke _ _) trivial

/-! ## Runs -/

/-- The steps of any processes whose allocations use empty indices. -/
def LeakFree (k : Krnl m) (call : MemCall) (k' : Krnl m) : Prop :=
  InBounds k call k' ∧ AllocEmpty k call

theorem accounted_boot (b : Boot) : (b.krnl : Krnl m).Accounted := by
  refine ⟨_, (oneArea_boot b).mmap, ?_⟩
  intro a ha
  exact absurd ha (Nat.not_lt_zero a)

/-- The region allocator leaks no address space as long as no allocation is made for an
index that has a region: every byte below `sbrk` is in a region of the table or in a
free one.  An allocation for an index that has a region loses the bytes of this region. -/
theorem no_leak (b : Boot) (hstale : b.staleFreerg = []) {es : List (MemCall × Answer)}
    {k : Krnl m} (hrun : Lts.Run (Stepped LeakFree) b.krnl es k) :
    k.Accounted ∧
      ∀ (call : MemCall) (a : Answer) (k' : Krnl m),
        Stepped InBounds k (call, a) k' → (k'.Accounted ↔ AllocEmpty k call) := by
  have hinv : (∃ vma, Allocated k vma) ∧ k.SbrkSmall ∧ k.Accounted := by
    apply hrun.invariant
    · exact ⟨⟨_, allocated_boot b hstale⟩, sbrkSmall_boot b, accounted_boot b⟩
    · rintro k e k' ⟨⟨vma, halloc⟩, hsmall, hacc⟩ ⟨⟨⟨hrange, hsmall'⟩, hempty⟩, hcall⟩
      have hsbrk := halloc.area.sbrk_lt hsmall
      have hstep := run_step halloc.area hcall
      exact ⟨halloc.step hrange hsbrk hstep, hsmall',
        (accounted_step_iff halloc hacc hrange hsbrk hstep).mpr hempty⟩
  obtain ⟨⟨vma, halloc⟩, hsmall, hacc⟩ := hinv
  refine ⟨hacc, ?_⟩
  rintro call a k' ⟨⟨hrange, -⟩, hcall⟩
  exact accounted_step_iff halloc hacc hrange (halloc.area.sbrk_lt hsmall)
    (run_step halloc.area hcall)

instance (k : Krnl m) (call : MemCall) : Decidable (AllocEmpty k call) :=
  match call with
  | .alloc _ rgid _ => Option.decidableForallMem
      (p := fun i => (k.mm.symrgtbl i).Empty) (symIndex rgid)
  | .free _ => instDecidableTrue
  | .read _ _ => instDecidableTrue
  | .write _ _ _ => instDecidableTrue

instance (k k' : Krnl m) (call : MemCall) : Decidable (LeakFree k call k') :=
  inferInstanceAs (Decidable (_ ∧ _))

/-- A region is freed before its index is used again. -/
theorem no_leak_reused :
    ∃ (es : List (MemCall × Answer)) (k : Krnl countingMalloc),
      Lts.Run (Stepped LeakFree) smallBoot.krnl es k ∧
      (k.mm.symrgtbl 0 = ⟨0, 30⟩ ∧ k.mm.symrgtbl 1 = ⟨100, 150⟩) ∧ k.Accounted := by
  obtain ⟨es, k, hrun, hobs⟩ := Lts.record_observe
    LeakFree (fun (k : Krnl countingMalloc) call => call.run k) smallBoot.krnl
    [.alloc soleCaller 0 100, .alloc soleCaller 1 50, .free 0, .alloc soleCaller 0 30]
    (fun _ k => (k.mm.symrgtbl 0, k.mm.symrgtbl 1))
    (v := (⟨0, 30⟩, ⟨100, 150⟩)) (by decide +kernel)
  exact ⟨es, k, hrun, Prod.mk.inj hobs, (no_leak smallBoot rfl hrun).1⟩

/-- An index is allocated twice: the first 100 bytes are in no region any more. -/
theorem not_no_leak :
    ¬ ∀ (b : Boot), b.staleFreerg = [] →
      ∀ (es : List (MemCall × Answer)) (k : Krnl countingMalloc),
        Lts.Run (Stepped InBounds) b.krnl es k → k.Accounted := by
  intro hclaim
  obtain ⟨es, k, hrun, hobs⟩ := Lts.record_observe
    InBounds (fun (k : Krnl countingMalloc) call => call.run k) smallBoot.krnl
    [.alloc soleCaller 0 100, .alloc soleCaller 0 100]
    (fun _ k => (k.mm.mmap.map fun vma => (vma.sbrk, vma.vmFreergList),
      (List.finRange 30).map k.mm.symrgtbl))
    (v := ([(200, [⟨0, 0⟩])], ⟨100, 200⟩ :: List.replicate 29 ⟨0, 0⟩)) (by decide +kernel)
  obtain ⟨hmmap, hsym⟩ := Prod.mk.inj hobs
  obtain ⟨vma, harea, hacc⟩ := hclaim smallBoot rfl es k hrun
  rw [harea, List.map_singleton, List.singleton_inj, Prod.mk.injEq] at hmmap
  rcases hacc 0 (by rw [hmmap.1]; decide) with ⟨i, hi⟩ | ⟨r, hr, hhas⟩
  · have hmem : k.mm.symrgtbl i ∈ (List.finRange 30).map k.mm.symrgtbl :=
      List.mem_map_of_mem (List.mem_finRange i)
    rw [hsym, List.mem_cons, List.mem_replicate] at hmem
    rcases hmem with heq | ⟨-, heq⟩
    · rw [heq] at hi
      exact absurd hi.1 (by decide)
    · rw [heq] at hi
      exact absurd hi.2 (by decide)
  · rw [hmmap.2, List.mem_singleton] at hr
    rw [hr] at hhas
    exact absurd hhas.2 (by decide)

end Memory
end Hdh
