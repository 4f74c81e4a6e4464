import Hdh.Memory.Accounting

/-!
# The search for a free region

`get_free_vmrg_area` takes its size as an `int`, and `__alloc` keeps the break in an `int`:
a size or a break that does not fit is cut and extended with its sign.

Main results:

- Theorem `first_fit_exact`: what the search does, on lists of regions below `2 ^ 63` and with
  positive sizes.
- Theorem `alloc_exact_iff`: when an allocation gives a region of the size asked for.
-/

namespace Hdh
namespace Memory

variable {m : Radix.Malloc Nat 0} {k k' : Krnl m} {vma : VmArea} {l l' : List VmRg}

/-! ## First fit -/

/-- The region is at least `size` long. -/
def VmRg.Spans (r : VmRg) (size : BitVec 32) : Prop :=
  r.rgStart.toNat + size.toNat ≤ r.rgEnd.toNat

/-- The regions that have an address, in order. -/
def nonEmpty (l : List VmRg) : List VmRg :=
  l.filter fun r => decide (¬ r.Empty)

/-- `newrg` is the first `size` bytes of the first region of `l` that is long enough, and
`l'` is the list with the rest of this region in its place. -/
structure FirstFit (size : BitVec 32) (l l' : List VmRg) (newrg : VmRg) : Prop where
  split : ∃ pre rg post, l = pre ++ rg :: post ∧ (∀ r ∈ pre, ¬ r.Spans size) ∧
    rg.Spans size ∧ newrg.rgStart = rg.rgStart ∧
    newrg.rgEnd.toNat = rg.rgStart.toNat + size.toNat ∧
    nonEmpty l' = nonEmpty pre ++ nonEmpty [⟨newrg.rgEnd, rg.rgEnd⟩] ++ nonEmpty post
  conserved : ∀ a, hasCount l a = hasCount l' a + if newrg.Has a then 1 else 0

/-- On regions below `2 ^ 63` the addition of the test does not wrap round. -/
theorem VmRg.spans_iff {r : VmRg} {size : BitVec 32}
    (hr : r.rgStart ≤ r.rgEnd ∧ r.rgEnd.toNat < 2 ^ 63) (hsize : size.toNat < 2 ^ 31) :
    r.rgStart + size.signExtend 64 ≤ r.rgEnd ↔ r.Spans size := by
  have hext := signExtend_of_lt hsize
  obtain ⟨hle, hlt⟩ := hr
  rw [BitVec.le_def] at hle
  rw [BitVec.le_def, BitVec.toNat_add, hext, Spans]
  omega

/-- The regions of two lists that are not empty. -/
theorem nonEmpty_append (l l' : List VmRg) :
    nonEmpty (l ++ l') = nonEmpty l ++ nonEmpty l' := by
  rw [nonEmpty, List.filter_append]
  rfl

/-- An empty region at the end of the list counts for nothing. -/
theorem nonEmpty_leftOver (size : Addr) (rg : VmRg) (post : List VmRg) :
    nonEmpty (leftOver size rg post) = nonEmpty [⟨rg.rgStart + size, rg.rgEnd⟩] := by
  have hself : VmRg.Empty ⟨rg.rgEnd, rg.rgEnd⟩ := BitVec.le_refl _
  unfold leftOver
  split_ifs with hmore hlast
  · rfl
  all_goals
    have hempty : VmRg.Empty ⟨rg.rgStart + size, rg.rgEnd⟩ := BitVec.not_lt.mp hmore
    simp [nonEmpty, hempty, hself]

/-- A byte lies in at most one of several disjoint regions. -/
theorem hasCount_le_one (hapart : l.Pairwise VmRg.Apart) (a : Nat) : hasCount l a ≤ 1 := by
  induction l with
  | nil => exact Nat.zero_le 1
  | cons r l ih =>
      obtain ⟨hr, hl⟩ := List.pairwise_cons.mp hapart
      rw [hasCount_cons]
      split_ifs with hhas
      · have hzero : hasCount l a = 0 := by
          apply Nat.eq_zero_of_not_pos
          intro hpos
          obtain ⟨s, hs, hshas⟩ := hasCount_pos_iff.mp hpos
          exact (hr s hs).not_has hhas hshas
        omega
      · exact ih hl

/-- What the loop finds is the first fit. -/
theorem firstFit_of_fitLoop {size : BitVec 32} {newrg : VmRg}
    (hl : ∀ r ∈ l, r.rgStart ≤ r.rgEnd ∧ r.rgEnd.toNat < 2 ^ 63)
    (hsize : size.toNat < 2 ^ 31)
    (h : fitLoop (size.signExtend 64) l = some (newrg, l')) : FirstFit size l l' newrg := by
  have hext := signExtend_of_lt hsize
  constructor
  · obtain ⟨pre, rg, post, rfl, hpre, hfit, rfl, rfl⟩ := fitLoop_split h
    have hspan := (VmRg.spans_iff (hl rg (by simp)) hsize).mp hfit
    refine ⟨pre, rg, post, rfl, ?_, hspan, rfl, ?_, ?_⟩
    · intro r hr hspans
      exact hpre r hr ((VmRg.spans_iff (hl r (by simp [hr])) hsize).mpr hspans)
    · have hlt := (hl rg (by simp)).2
      unfold VmRg.Spans at hspan
      rw [BitVec.toNat_add, hext]
      omega
    · rw [nonEmpty_append, nonEmpty_append, nonEmpty_leftOver]
  · intro a
    rw [← fitLoop_hasCount h, hasCount_cons]
    intro r hr
    obtain ⟨hle, hlt⟩ := hl r hr
    rw [BitVec.le_def] at hle
    rw [BitVec.le_def, BitVec.toNat_add, hext]
    omega

/-- First fit is exact and conserves free space: `get_free_vmrg_area` answers 0 exactly when
some region is long enough, takes the first bytes of the first such region, and leaves the
others in order.  Every byte lies in as many free regions as before, when the region handed
out is counted in; so none lies in both when the free regions are disjoint. -/
theorem first_fit_exact (hl : ∀ r ∈ l, r.rgStart ≤ r.rgEnd ∧ r.rgEnd.toNat < 2 ^ 63)
    {size : BitVec 32} (hsize : size.toNat < 2 ^ 31) :
    ((getFreeVmrgArea l size).1.isSome ↔ ∃ r ∈ l, r.Spans size) ∧
      ((getFreeVmrgArea l size).1 = none → (getFreeVmrgArea l size).2 = l) ∧
      ∀ newrg, (getFreeVmrgArea l size).1 = some newrg →
        FirstFit size l (getFreeVmrgArea l size).2 newrg ∧
        (l.Pairwise VmRg.Apart → ∀ a, newrg.Has a →
          ¬ ∃ r ∈ (getFreeVmrgArea l size).2, r.Has a) := by
  have hstart : ∀ r ∈ l, r.rgStart ≠ -1 := by
    intro r hr
    obtain ⟨hle, hlt⟩ := hl r hr
    bv_omega
  cases hget : getFreeVmrgArea l size with
  | mk found l' =>
      cases found with
      | none =>
          obtain ⟨rfl, hnone⟩ := getFreeVmrgArea_eq_none hget hstart
          refine ⟨iff_of_false (by simp) ?_, fun _ => rfl, ?_⟩
          · rintro ⟨r, hr, hspans⟩
            exact fitLoop_eq_none_iff.mp hnone r hr
              ((VmRg.spans_iff (hl r hr) hsize).mpr hspans)
          · intro newrg hnew
            cases hnew
      | some newrg =>
          have hfit := firstFit_of_fitLoop hl hsize (getFreeVmrgArea_eq_some hget)
          refine ⟨iff_of_true rfl ?_, ?_, ?_⟩
          · obtain ⟨pre, rg, post, rfl, -, hspans, -⟩ := hfit.split
            exact ⟨rg, by simp, hspans⟩
          · intro hnone
            cases hnone
          · rintro newrg' hnew
            cases hnew
            refine ⟨hfit, fun hapart a hhas hleft => ?_⟩
            have hcount := hfit.conserved a
            have hle := hasCount_le_one hapart a
            have hpos : 0 < hasCount l' a := hasCount_pos_iff.mpr hleft
            rw [if_pos hhas] at hcount
            omega

/-- A region of 10 bytes that is too short is passed over; the one behind it is cut. -/
theorem first_fit_exact_second :
    FirstFit 20 [⟨0, 10⟩, ⟨16, 48⟩] [⟨0, 10⟩, ⟨36, 48⟩] ⟨16, 36⟩ := by
  have hl : ∀ r ∈ [(⟨0, 10⟩ : VmRg), ⟨16, 48⟩],
      r.rgStart ≤ r.rgEnd ∧ r.rgEnd.toNat < 2 ^ 63 := by decide
  have hsize : (20 : BitVec 32).toNat < 2 ^ 31 := by decide
  exact ((first_fit_exact hl hsize).2.2 ⟨16, 36⟩ (by decide)).1

/-- Two free regions that overlap: the byte 0 is handed out and still free. -/
theorem not_first_fit_apart :
    ¬ ∀ (l : List VmRg) (size : BitVec 32),
      (∀ r ∈ l, r.rgStart ≤ r.rgEnd ∧ r.rgEnd.toNat < 2 ^ 63) → 0 < size.toNat →
      size.toNat < 2 ^ 31 → ∀ newrg, (getFreeVmrgArea l size).1 = some newrg →
        ∀ a, newrg.Has a → ¬ ∃ r ∈ (getFreeVmrgArea l size).2, r.Has a := by
  intro hclaim
  have hl : ∀ r ∈ [(⟨0, 10⟩ : VmRg), ⟨0, 10⟩],
      r.rgStart ≤ r.rgEnd ∧ r.rgEnd.toNat < 2 ^ 63 := by decide
  exact hclaim [⟨0, 10⟩, ⟨0, 10⟩] 5 hl (by decide) (by decide) ⟨0, 5⟩ (by decide) 0
    (by decide) ⟨⟨0, 10⟩, by decide, by decide⟩

/-! ## The size of an allocation -/

/-- The first free region with enough space for the size that `get_free_vmrg_area` is
given. -/
def firstFit (l : List VmRg) (size : Addr) : Option VmRg :=
  l.find? fun r => decide (r.rgStart + size ≤ r.rgEnd)

/-- A size as `get_free_vmrg_area` adds it to an address. -/
def intSize (size : Addr) : Addr :=
  (size.setWidth 32).signExtend 64

/-- The free region that an allocation takes.  The search takes a region that starts at the
last address for none. -/
def VmArea.candidate (vma : VmArea) (size : Addr) : Option VmRg :=
  (firstFit vma.vmFreergList (intSize size)).filter fun r => r.rgStart ≠ -1

/-- The region that the loop answers is cut from the first one that is large enough. -/
theorem fitLoop_fst (l : List VmRg) (size : Addr) :
    (fitLoop size l).map Prod.fst =
      (firstFit l size).map fun r => ⟨r.rgStart, r.rgStart + size⟩ := by
  induction l with
  | nil => rfl
  | cons rgit rest ih =>
      by_cases hfit : rgit.rgStart + size ≤ rgit.rgEnd
      · rw [firstFit, List.find?_cons_of_pos (by simpa using hfit)]
        simp only [fitLoop, if_pos hfit]
        split_ifs
        · rfl
        · cases rest <;> rfl
      · rw [firstFit, List.find?_cons_of_neg (by simpa using hfit), ← firstFit, ← ih,
          fitLoop, if_neg hfit, Option.map_map]
        rfl

/-- So is the region that the function answers. -/
theorem getFreeVmrgArea_fst (vma : VmArea) (size : Addr) :
    (getFreeVmrgArea vma.vmFreergList (size.setWidth 32)).1 =
      (vma.candidate size).map fun r => ⟨r.rgStart, r.rgStart + intSize size⟩ := by
  have hfst := fitLoop_fst vma.vmFreergList (intSize size)
  unfold getFreeVmrgArea VmArea.candidate
  split
  · rename_i hnil
    rw [hnil]
    rfl
  · rw [← intSize]
    cases hfit : fitLoop (intSize size) vma.vmFreergList with
    | none =>
        rw [hfit] at hfst
        have hnone : firstFit vma.vmFreergList (intSize size) = none := by
          simpa using hfst.symm
        rw [hnone]
        rfl
    | some got =>
        rw [hfit, Option.map_some] at hfst
        obtain ⟨r, hr, heq⟩ := Option.map_eq_some_iff.mp hfst.symm
        rw [hr, Option.filter_some]
        simp only [← heq]
        by_cases hlast : r.rgStart = -1
        · rw [if_pos hlast, if_neg (by simp [hlast])]
          rfl
        · rw [if_neg hlast, if_pos (decide_eq_true hlast)]
          rfl

/-- The cell has a region of the size asked for, which begins at the address answered, and
this address was the start of a free region or the break. -/
def ExactRegion (k k' : Krnl m) (i : Fin maxSymtblSz) (size addr : Addr) : Prop :=
  (k'.mm.symrgtbl i).rgStart ≤ (k'.mm.symrgtbl i).rgEnd ∧
    (k'.mm.symrgtbl i).rgEnd - (k'.mm.symrgtbl i).rgStart = size ∧
    addr = (k'.mm.symrgtbl i).rgStart ∧
    ∃ vma, k.mm.mmap = [vma] ∧
      ((∃ r ∈ vma.vmFreergList, r.rgStart = (k'.mm.symrgtbl i).rgStart) ∨
        (k'.mm.symrgtbl i).rgStart = vma.sbrk)

/-- The allocation gives such a region, or it is rejected. -/
def AllocExact (k : Krnl m) (caller : Caller) (rgid : Int) (size : Addr) : Prop :=
  ∃ ret addr k', alloc k caller 0 rgid size = some (ret, addr, k') ∧
    (ret = -1 ∨ ret = 0 ∧ ∃ i, symIndex rgid = some i ∧ ExactRegion k k' i size addr)

/-- The conversions to `int` change nothing that matters, and no sum wraps round. -/
def Convertible (vma : VmArea) (size : Addr) : Prop :=
  match vma.candidate size with
  | some r => intSize size = size ∧ r.rgStart.toNat + size.toNat < 2 ^ 64
  | none =>
      (vma.oldSbrk = vma.sbrk ∨ ∃ r ∈ vma.vmFreergList, r.rgStart = vma.oldSbrk) ∧
        vma.oldSbrk.toNat + size.toNat < 2 ^ 64

/-- The region that is cut is on the list. -/
theorem candidate_mem {size : Addr} {r : VmRg} (h : vma.candidate size = some r) :
    r ∈ vma.vmFreergList := by
  obtain ⟨hfit, -⟩ := Option.filter_eq_some_iff.mp h
  exact List.mem_of_find?_eq_some hfit

/-- A sum that is not smaller has not overflowed. -/
theorem le_add_iff (a b : Addr) : a ≤ a + b ↔ a.toNat + b.toNat < 2 ^ 64 := by
  have ha := a.isLt
  have hb := b.isLt
  rw [BitVec.le_def, BitVec.toNat_add]
  omega

/-- What this says about a cell that has been written. -/
theorem exactRegion_iff (harea : OneArea k vma) {i : Fin maxSymtblSz}
    {start len size : Addr} (hcell : k'.mm.symrgtbl i = ⟨start, start + len⟩) :
    ExactRegion k k' i size start ↔
      len = size ∧ start.toNat + size.toNat < 2 ^ 64 ∧
        ((∃ r ∈ vma.vmFreergList, r.rgStart = start) ∨ start = vma.sbrk) := by
  have hlen : start + len - start = len := by bv_omega
  unfold ExactRegion
  rw [hcell]
  simp only [hlen, le_add_iff, true_and]
  constructor
  · rintro ⟨hsum, rfl, vma', hmmap, hfrom⟩
    obtain rfl := List.singleton_inj.mp (harea.mmap.symm.trans hmmap)
    exact ⟨rfl, hsum, hfrom⟩
  · rintro ⟨rfl, hsum, hfrom⟩
    exact ⟨hsum, rfl, vma, harea.mmap, hfrom⟩

/-- Whether an allocation is exact, for the region that it has entered in the table. -/
theorem allocExact_iff_of_eq {caller : Caller} {rgid : Int} {i : Fin maxSymtblSz}
    {size addr : Addr} (hindex : symIndex rgid = some i)
    (h : alloc k caller 0 rgid size = some (0, addr, k')) :
    AllocExact k caller rgid size ↔ ExactRegion k k' i size addr := by
  constructor
  · rintro ⟨ret, addr', k'', heq, hrej | ⟨-, j, hj, hexact⟩⟩
    · rw [h, hrej] at heq
      cases heq
    · obtain rfl := Option.some.inj (hindex.symm.trans hj)
      rw [h] at heq
      cases heq
      exact hexact
  · intro hexact
    exact ⟨0, addr, k', h, Or.inr ⟨rfl, i, hindex, hexact⟩⟩

/-- An allocation gives a region of the size asked for exactly when the conversions to `int`
do no harm: it never rejects a size. -/
theorem allocExact_iff (harea : OneArea k vma) (caller : Caller) {rgid : Int}
    {i : Fin maxSymtblSz} (hindex : symIndex rgid = some i) (size : Addr) :
    AllocExact k caller rgid size ↔ Convertible vma size := by
  have hfst := getFreeVmrgArea_fst vma size
  cases hget : getFreeVmrgArea vma.vmFreergList (size.setWidth 32) with
  | mk found freerg =>
      rw [hget] at hfst
      unfold Convertible
      cases hcand : vma.candidate size with
      | some r =>
          rw [hcand, Option.map_some] at hfst
          obtain rfl : found = some ⟨r.rgStart, r.rgStart + intSize size⟩ := hfst
          have hfrom : (∃ r' ∈ vma.vmFreergList, r'.rgStart = r.rgStart) ∨
              r.rgStart = vma.sbrk := Or.inl ⟨r, candidate_mem hcand, rfl⟩
          have hcell : (k.hit vma i ⟨r.rgStart, r.rgStart + intSize size⟩ freerg).mm.symrgtbl i =
              ⟨r.rgStart, r.rgStart + intSize size⟩ := Function.update_self ..
          rw [allocExact_iff_of_eq hindex (alloc_eq_hit harea caller hindex hget),
            exactRegion_iff harea hcell]
          simp only [hfrom, and_true]
      | none =>
          rw [hcand, Option.map_none] at hfst
          obtain rfl : found = none := hfst
          have hcell : (k.grow vma caller i size freerg).mm.symrgtbl i =
              ⟨vma.oldSbrk, vma.oldSbrk + size⟩ := Function.update_self ..
          rw [allocExact_iff_of_eq hindex (alloc_eq_grow harea caller hindex hget),
            exactRegion_iff harea hcell]
          simp only [true_and]
          rw [and_comm, or_comm]

/-- In every reachable state, an allocation gives a region of the size asked for, at the start
of a free region or at the break, exactly when the conversions to `int` do no harm: a size
that fits no `int` is not rejected but cut. -/
theorem alloc_exact_iff (b : Boot) {es : List (MemCall × Answer)}
    (hrun : Lts.Run (Stepped fun _ _ _ => True) b.krnl es k) (caller : Caller) {rgid : Int}
    (hrgid : 0 ≤ rgid ∧ rgid < 30) (size : Addr) :
    ∃ vma, k.mm.mmap = [vma] ∧ (AllocExact k caller rgid size ↔ Convertible vma size) := by
  have hinv := invariant_of_boot (I := fun _ => True) b hrun trivial
    fun _ _ _ _ _ _ _ _ _ => trivial
  obtain ⟨⟨vma, harea⟩, -⟩ := hinv
  obtain ⟨i, hindex⟩ := symIndex_of_range hrgid
  exact ⟨vma, harea.mmap, allocExact_iff harea caller hindex size⟩

/-- After an allocation, for a size that is 16 modulo `2 ^ 32`. -/
theorem alloc_exact_iff_second :
    ∃ (es : List (MemCall × Answer)) (k : Krnl countingMalloc),
      Lts.Run (Stepped fun _ _ _ => True) smallBoot.krnl es k ∧
      k.mm.symrgtbl 0 = ⟨0, 100⟩ ∧
      ∃ vma, k.mm.mmap = [vma] ∧
        (AllocExact k soleCaller 1 0x100000010 ↔ Convertible vma 0x100000010) := by
  obtain ⟨es, k, hrun, hobs⟩ := Lts.record_observe
    (fun _ _ _ => True) (fun (k : Krnl countingMalloc) (call : MemCall) => call.run k)
    smallBoot.krnl [.alloc soleCaller 0 100] (fun _ k => k.mm.symrgtbl 0) (v := ⟨0, 100⟩)
    (by decide +kernel)
  exact ⟨es, k, hrun, hobs, alloc_exact_iff smallBoot hrun soleCaller (by decide) _⟩

/-- The first allocation asks for `2 ^ 32` bytes and gets the empty free region. -/
theorem not_alloc_exact :
    ¬ ∀ (b : Boot) (es : List (MemCall × Answer)) (k : Krnl countingMalloc),
      b.staleFreerg = [] → Lts.Run (Stepped fun _ _ _ => True) b.krnl es k →
      ∀ (caller : Caller) (rgid : Int), 0 ≤ rgid ∧ rgid < 30 →
        ∀ size, AllocExact k caller rgid size := by
  intro hclaim
  have harea := oneArea_boot (m := countingMalloc) smallBoot
  have hexact := hclaim smallBoot [] smallBoot.krnl rfl Lts.Run.nil soleCaller 0 (by decide)
    0x100000000
  have hbad := (allocExact_iff harea soleCaller (i := 0) (by decide) 0x100000000).mp hexact
  exact absurd hbad.1 (by decide)

end Memory
end Hdh
