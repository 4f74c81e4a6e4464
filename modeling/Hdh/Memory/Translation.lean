import Hdh.Memory.FirstFit
import Hdh.Memory.Growth

/-!
# Address translation

Pages are mapped by 4096 bytes and looked up by 256 bytes, and the accesses look at 22 bits
of an address.

Main results:

- Theorem `paths_agree_iff`: the mapping and the accesses agree on the pages of a growth only
  when it adds no address.
- Theorem `noAlias_iff`: when no two addresses of live regions have the same page and offset.
- Theorem `no_alias`: which allocations keep it so.
-/

namespace Hdh
namespace Memory

variable {m : Radix.Malloc Nat 0} {k k' : Krnl m} {vma : VmArea}

/-! ## The two page sizes -/

/-- The page of an address for `vmap_page_range`. -/
def mappedPage (a : Addr) : Addr :=
  a >>> 12

/-- The page of an address for `pg_getval` and `pg_setval`, which take an `int`. -/
def accessPage (a : Addr) : Addr :=
  pagingPgn (a.setWidth 32)

/-- The addresses between `lo` and `hi` are looked up on pages that have been entered in
between, and two of them are on one page for the accesses exactly when they are for the
mapping. -/
structure PathsAgree (k k' : Krnl m) (lo hi : Addr) : Prop where
  entered : ∃ new, k'.mm.entered = new ++ k.mm.entered ∧
    ∀ a, lo ≤ a → a < hi → accessPage a ∈ new
  same_page : ∀ a b, lo ≤ a → a < hi → lo ≤ b → b < hi →
    (mappedPage a = mappedPage b ↔ accessPage a = accessPage b)

theorem accessPage_toNat (a : Addr) : (accessPage a).toNat = a.toNat / 256 % 2 ^ 14 := by
  rw [accessPage, pagingPgn_toNat, BitVec.toNat_setWidth]
  omega

theorem mappedPage_toNat (a : Addr) : (mappedPage a).toNat = a.toNat / 4096 := by
  rw [mappedPage, BitVec.toNat_ushiftRight, Nat.shiftRight_eq_div_pow]

/-- A range of 4096 bytes has two addresses on one page of this size that are 256 bytes
apart. -/
theorem exists_on_one_page {lo hi : Addr} (hlen : lo.toNat + 4096 ≤ hi.toNat) :
    ∃ a b, lo ≤ a ∧ a < hi ∧ lo ≤ b ∧ b < hi ∧ b.toNat = a.toNat + 256 ∧
      mappedPage a = mappedPage b := by
  have hhi := hi.isLt
  -- the first address of the range, or of the next page when too little is left of the page
  have hstart : ∃ n, lo.toNat ≤ n ∧ n + 256 < hi.toNat ∧ n / 4096 = (n + 256) / 4096 := by
    by_cases hleft : lo.toNat % 4096 < 3840
    · exact ⟨lo.toNat, by omega, by omega, by omega⟩
    · exact ⟨(lo.toNat / 4096 + 1) * 4096, by omega, by omega, by omega⟩
  obtain ⟨n, hlo, hlt, hpage⟩ := hstart
  have ha : (BitVec.ofNat 64 n).toNat = n := by
    rw [BitVec.toNat_ofNat]
    omega
  have hb : (BitVec.ofNat 64 (n + 256)).toNat = n + 256 := by
    rw [BitVec.toNat_ofNat]
    omega
  refine ⟨BitVec.ofNat 64 n, BitVec.ofNat 64 (n + 256), ?_, ?_, ?_, ?_, by rw [ha, hb], ?_⟩
  · rw [BitVec.le_def, ha]
    exact hlo
  · rw [BitVec.lt_def, ha]
    omega
  · rw [BitVec.le_def, hb]
    omega
  · rw [BitVec.lt_def, hb]
    exact hlt
  · apply BitVec.eq_of_toNat_eq
    rw [mappedPage_toNat, mappedPage_toNat, ha, hb, hpage]

/-- Addresses that are 256 bytes apart are looked up on different pages. -/
theorem accessPage_ne {a b : Addr} (h : b.toNat = a.toNat + 256) :
    accessPage a ≠ accessPage b := by
  intro heq
  have hpage := congrArg BitVec.toNat heq
  rw [accessPage_toNat, accessPage_toNat, h] at hpage
  omega

/-- An area grows by whole pages. -/
theorem lt_add_align {lo incSz : Addr} (hlt : lo < lo + page64AlignSz incSz) :
    lo.toNat + 4096 ≤ (lo + page64AlignSz incSz).toNat := by
  have hmul : (page64AlignSz incSz).toNat % 4096 = 0 := by
    rw [page64AlignSz, BitVec.toNat_mul, page64Sz_toNat]
    omega
  rw [BitVec.lt_def, BitVec.toNat_add] at hlt
  rw [BitVec.toNat_add]
  omega

theorem vmEnd_extend {pos : Nat} {area area' : VmArea} {incSz : Addr}
    (harea : k.mm.mmap[pos]? = some area)
    (harea' : (k.extend pos area incSz).mm.mmap[pos]? = some area') :
    area'.vmEnd = area.vmEnd + page64AlignSz incSz := by
  rw [(extend_frame k pos area incSz).1, List.getElem?_modify_eq, harea] at harea'
  cases harea'
  rfl

/-- The mapping path and the access path agree on the range that a successful growth adds
only when this range is empty: the increment wraps round to no page, or the new end of the
area wraps round. -/
theorem paths_agree_iff {vmaid : Int} {incSz : Addr} {pos : Nat} {area area' : VmArea}
    (hgrow : incVmaLimit k vmaid incSz = some (0, k'))
    (hpos : getVmaByNum k.mm.mmap vmaid = some (some pos))
    (harea : k.mm.mmap[pos]? = some area) (harea' : k'.mm.mmap[pos]? = some area') :
    PathsAgree k k' area.vmEnd area'.vmEnd ↔
      ¬ area.vmEnd < area.vmEnd + page64AlignSz incSz := by
  have hne : incSz ≠ 0 := by
    rintro rfl
    simp [incVmaLimit] at hgrow
  rcases incVmaLimit_cases hne hgrow with ⟨hret, -⟩ | ⟨pos', area₀, hpos', harea₀, -, rfl⟩
  · cases hret
  · obtain rfl : pos = pos' := by simpa [hpos] using hpos'
    obtain rfl : area = area₀ := by simpa [harea] using harea₀
    rw [vmEnd_extend harea harea']
    constructor
    · intro hagree hlt
      obtain ⟨a, b, ha, ha', hb, hb', hdist, hpage⟩ := exists_on_one_page (lt_add_align hlt)
      exact accessPage_ne hdist ((hagree.same_page a b ha ha' hb hb').mp hpage)
    · intro hempty
      have hno : ∀ a, area.vmEnd ≤ a → ¬ a < area.vmEnd + page64AlignSz incSz := by
        intro a ha ha'
        exact hempty (by bv_omega)
      exact ⟨⟨_, (extend_frame k pos area incSz).2.2, fun a ha ha' => absurd ha' (hno a ha)⟩,
        fun a _ ha ha' => absurd ha' (hno a ha)⟩

/-- A growth by one page: it adds a range that is not empty. -/
theorem paths_agree_iff_one :
    ∃ (k' : Krnl countingMalloc) (area' : VmArea),
      incVmaLimit smallBoot.krnl 0 4096 = some (0, k') ∧
      (PathsAgree smallBoot.krnl k' 0 area'.vmEnd ↔
        ¬ (0 : Addr) < 0 + page64AlignSz 4096) := by
  have harea := oneArea_boot (m := countingMalloc) smallBoot
  have hne : (4096 : Addr) ≠ 0 := by decide
  have hgrow := harea.extends hne
  exact ⟨_, _, hgrow, paths_agree_iff hgrow harea.getVmaByNum rfl rfl⟩

/-- After a growth by one page, the addresses 0 and 256 are mapped to page 0 and looked up
on the pages 0 and 1. -/
theorem not_paths_agree :
    ¬ ∀ (k k' : Krnl countingMalloc) (vmaid : Int) (incSz : Addr) (pos : Nat)
      (area area' : VmArea), pageCount incSz ≤ k.mram.freeFpList.length →
      incVmaLimit k vmaid incSz = some (0, k') →
      getVmaByNum k.mm.mmap vmaid = some (some pos) → k.mm.mmap[pos]? = some area →
      k'.mm.mmap[pos]? = some area' → PathsAgree k k' area.vmEnd area'.vmEnd := by
  intro hclaim
  have harea := oneArea_boot (m := countingMalloc) smallBoot
  have hne : (4096 : Addr) ≠ 0 := by decide
  have hgrow := harea.extends hne
  have hagree := hclaim _ _ 0 4096 0 _ _ (by decide) hgrow harea.getVmaByNum rfl rfl
  have hpage := (hagree.same_page 0 256 (by decide) (by decide) (by decide) (by decide)).mp
    (by decide)
  exact absurd hpage (by decide)

/-! ## The bits of an address -/

/-- `__read` and `__write` admit the address `a` of a region, which they pass on as `vaddr`. -/
def Admits (k : Krnl m) (a : Addr) (vaddr : BitVec 32) : Prop :=
  ∃ rgid offset i, symIndex rgid = some i ∧
    accessAddr k 0 rgid offset = some (some vaddr) ∧
    a = (k.mm.symrgtbl i).rgStart + offset

/-- Different addresses that are admitted have different pages or offsets. -/
def NoAlias (k : Krnl m) : Prop :=
  ∀ a b v w, Admits k a v → Admits k b w → a ≠ b →
    (pagingPgn v, pagingOffst v) ≠ (pagingPgn w, pagingOffst w)

/-- The region `r`, moved up by a multiple of 4 MiB, does not meet the region `s`. -/
def Unaliased (r s : VmRg) : Prop :=
  r.Empty ∨ s.Empty ∨ ∀ q, 0 < q →
    s.rgEnd.toNat ≤ r.rgStart.toNat + q * 2 ^ 22 ∨
      r.rgEnd.toNat + q * 2 ^ 22 ≤ s.rgStart.toNat

/-- The region that an allocation hands out: the beginning of a free region, or what follows
the break. -/
def VmArea.handsOut (vma : VmArea) (size : Addr) : VmRg :=
  match vma.candidate size with
  | some r => ⟨r.rgStart, r.rgStart + intSize size⟩
  | none => ⟨vma.oldSbrk, vma.oldSbrk + size⟩

/-- A new region for the cell `i` aliases neither itself nor a region of another cell. -/
def FitsIn (sym : SymRgTbl) (i : Fin maxSymtblSz) (rg : VmRg) : Prop :=
  Unaliased rg rg ∧ ∀ j, j ≠ i → Unaliased rg (sym j) ∧ Unaliased (sym j) rg

/-- An allocation hands out such a region. -/
def AllocUnaliased (k : Krnl m) : MemCall → Prop
  | .alloc _ rgid size => ∀ vma ∈ k.mm.mmap, ∀ i ∈ symIndex rgid,
      FitsIn k.mm.symrgtbl i (vma.handsOut size)
  | _ => True

/-- The page and the offset are 22 bits of the address. -/
theorem slot_eq_iff (a b : Addr) :
    (pagingPgn (a.setWidth 32), pagingOffst (a.setWidth 32)) =
        (pagingPgn (b.setWidth 32), pagingOffst (b.setWidth 32)) ↔
      a.toNat % 2 ^ 22 = b.toNat % 2 ^ 22 := by
  rw [Prod.mk.injEq, ← BitVec.toNat_inj, ← BitVec.toNat_inj, pagingPgn_toNat,
    pagingPgn_toNat, pagingOffst_toNat, pagingOffst_toNat, BitVec.toNat_setWidth,
    BitVec.toNat_setWidth]
  omega

/-- The addresses that are admitted are those of the regions of the table. -/
theorem admits_iff (harea : OneArea k vma) {a : Addr} {vaddr : BitVec 32} :
    Admits k a vaddr ↔
      (∃ i, (k.mm.symrgtbl i).Has a.toNat) ∧ vaddr = a.setWidth 32 := by
  constructor
  · rintro ⟨rgid, offset, i, hindex, haddr, rfl⟩
    obtain ⟨j, hj, hoff, hlive, rfl⟩ := accessAddr_eq_some harea haddr
    obtain rfl := Option.some.inj (hindex.symm.trans hj)
    refine ⟨⟨i, ?_⟩, rfl⟩
    unfold VmRg.Has
    bv_omega
  · rintro ⟨⟨i, hlo, hhi⟩, rfl⟩
    have hsum : (k.mm.symrgtbl i).rgStart + (a - (k.mm.symrgtbl i).rgStart) = a := by
      bv_omega
    have hlive : (k.mm.symrgtbl i).rgStart < (k.mm.symrgtbl i).rgEnd := by bv_omega
    have hoff : a - (k.mm.symrgtbl i).rgStart <
        (k.mm.symrgtbl i).rgEnd - (k.mm.symrgtbl i).rgStart := by bv_omega
    have haddr := accessAddr_of_has harea (symIndex_val i) hlive hoff
    rw [hsum] at haddr
    exact ⟨i.val, a - (k.mm.symrgtbl i).rgStart, i, symIndex_val i, haddr, hsum.symm⟩

theorem VmRg.Has.not_empty {r : VmRg} {a : Nat} (h : r.Has a) : ¬ r.Empty :=
  fun hempty => VmRg.not_has_of_empty hempty a h

/-- Regions that are not apart in this way have two addresses with the same 22 bits. -/
theorem exists_alias {r s : VmRg} (h : ¬ Unaliased r s) :
    ∃ a b : Nat, r.Has a ∧ s.Has b ∧ a < b ∧ a % 2 ^ 22 = b % 2 ^ 22 := by
  simp only [Unaliased, VmRg.Empty, BitVec.le_def, not_or, not_forall, Nat.not_le] at h
  obtain ⟨hr, hs, q, hq, hlo, hhi⟩ := h
  -- the first address that is in both
  have hmax : ∃ b, r.rgStart.toNat + q * 2 ^ 22 ≤ b ∧ s.rgStart.toNat ≤ b ∧
      b < r.rgEnd.toNat + q * 2 ^ 22 ∧ b < s.rgEnd.toNat := by
    by_cases hle : s.rgStart.toNat ≤ r.rgStart.toNat + q * 2 ^ 22
    · exact ⟨r.rgStart.toNat + q * 2 ^ 22, by omega, hle, by omega, hlo⟩
    · exact ⟨s.rgStart.toNat, by omega, le_rfl, hhi, hs⟩
  obtain ⟨b, hb₁, hb₂, hb₃, hb₄⟩ := hmax
  refine ⟨b - q * 2 ^ 22, b, ⟨by omega, by omega⟩, ⟨hb₂, hb₄⟩, by omega, by omega⟩

theorem Unaliased.ne {r s : VmRg} (h : Unaliased r s) {a b : Nat} (ha : r.Has a)
    (hb : s.Has b) (hlt : a < b) : a % 2 ^ 22 ≠ b % 2 ^ 22 := by
  intro heq
  rcases h with hempty | hempty | hapart
  · exact ha.not_empty hempty
  · exact hb.not_empty hempty
  · have hq := hapart ((b - a) / 2 ^ 22) (by omega)
    unfold VmRg.Has at ha hb
    omega

/-- The accesses tell all addresses apart exactly when no region, moved up by a multiple of
4 MiB, meets another one or itself. -/
theorem noAlias_iff (harea : OneArea k vma) :
    NoAlias k ↔ ∀ i j, Unaliased (k.mm.symrgtbl i) (k.mm.symrgtbl j) := by
  constructor
  · intro hno i j
    by_contra hnot
    obtain ⟨a, b, ha, hb, hlt, heq⟩ := exists_alias hnot
    have hawide : (BitVec.ofNat 64 a).toNat = a := by
      have hend := (k.mm.symrgtbl i).rgEnd.isLt
      have hlast := ha.2
      rw [BitVec.toNat_ofNat]
      omega
    have hbwide : (BitVec.ofNat 64 b).toNat = b := by
      have hend := (k.mm.symrgtbl j).rgEnd.isLt
      have hlast := hb.2
      rw [BitVec.toNat_ofNat]
      omega
    refine hno (BitVec.ofNat 64 a) (BitVec.ofNat 64 b) _ _
      ((admits_iff harea).mpr ⟨⟨i, by rwa [hawide]⟩, rfl⟩)
      ((admits_iff harea).mpr ⟨⟨j, by rwa [hbwide]⟩, rfl⟩) ?_ ?_
    · intro hab
      rw [← BitVec.toNat_inj, hawide, hbwide] at hab
      omega
    · rw [slot_eq_iff, hawide, hbwide, heq]
  · rintro hall a b v w hadmit hadmit' hne heq
    obtain ⟨⟨i, hi⟩, rfl⟩ := (admits_iff harea).mp hadmit
    obtain ⟨⟨j, hj⟩, rfl⟩ := (admits_iff harea).mp hadmit'
    rw [slot_eq_iff] at heq
    rcases Nat.lt_trichotomy a.toNat b.toNat with hlt | hab | hgt
    · exact (hall i j).ne hi hj hlt heq
    · exact hne (BitVec.eq_of_toNat_eq hab)
    · exact (hall j i).ne hj hi hgt heq.symm

/-! ## Allocations -/

theorem unaliased_of_empty {r : VmRg} (hempty : r.Empty) (s : VmRg) :
    Unaliased r s ∧ Unaliased s r :=
  ⟨Or.inl hempty, Or.inr (Or.inl hempty)⟩

/-- A region is written into the table. -/
theorem unaliased_update_iff {sym : SymRgTbl}
    (h : ∀ i j, Unaliased (sym i) (sym j)) (i : Fin maxSymtblSz) (rg : VmRg) :
    (∀ j l, Unaliased (Function.update sym i rg j) (Function.update sym i rg l)) ↔
      FitsIn sym i rg := by
  constructor
  · intro hall
    refine ⟨?_, fun j hji => ⟨?_, ?_⟩⟩
    · have hself := hall i i
      rwa [Function.update_self] at hself
    · have hpair := hall i j
      rwa [Function.update_self, Function.update_of_ne hji] at hpair
    · have hpair := hall j i
      rwa [Function.update_self, Function.update_of_ne hji] at hpair
  · rintro ⟨hself, hother⟩ j l
    by_cases hj : j = i
    · by_cases hl : l = i
      · rwa [hj, hl, Function.update_self]
      · rw [hj, Function.update_self, Function.update_of_ne hl]
        exact (hother l hl).1
    · by_cases hl : l = i
      · rw [hl, Function.update_self, Function.update_of_ne hj]
        exact (hother j hj).2
      · rw [Function.update_of_ne hj, Function.update_of_ne hl]
        exact h j l

/-- An allocation writes the region that it hands out into the cell. -/
theorem handsOut_hit {size : Addr} {rg : VmRg} {freerg : List VmRg}
    (hget : getFreeVmrgArea vma.vmFreergList (size.setWidth 32) = (some rg, freerg)) :
    vma.handsOut size = rg := by
  have hfst := getFreeVmrgArea_fst vma size
  rw [hget] at hfst
  obtain ⟨r, hr, heq⟩ := Option.map_eq_some_iff.mp hfst.symm
  rw [VmArea.handsOut, hr]
  exact heq

theorem handsOut_grow {size : Addr} {freerg : List VmRg}
    (hget : getFreeVmrgArea vma.vmFreergList (size.setWidth 32) = (none, freerg)) :
    vma.handsOut size = ⟨vma.oldSbrk, vma.oldSbrk + size⟩ := by
  have hfst := getFreeVmrgArea_fst vma size
  rw [hget] at hfst
  rw [VmArea.handsOut, Option.map_eq_none_iff.mp hfst.symm]

theorem allocUnaliased_iff (harea : OneArea k vma) {caller : Caller} {rgid : Int}
    {size : Addr} {i : Fin maxSymtblSz} (hindex : symIndex rgid = some i) :
    AllocUnaliased k (.alloc caller rgid size) ↔
      FitsIn k.mm.symrgtbl i (vma.handsOut size) := by
  simp [AllocUnaliased, harea.mmap, hindex]

theorem allocUnaliased_of_target {call : MemCall} {target : Int × Addr}
    (h : call.target = some target) : AllocUnaliased k call := by
  rcases call.eq_of_target h with rfl | ⟨value, rfl⟩ <;> exact trivial

/-- Which instructions keep the regions apart in this way. -/
theorem unaliased_step_iff (harea : OneArea k vma)
    (h : ∀ i j, Unaliased (k.mm.symrgtbl i) (k.mm.symrgtbl j)) {call : MemCall}
    {a : Answer} (hstep : MemStep k vma call a k') :
    (∀ i j, Unaliased (k'.mm.symrgtbl i) (k'.mm.symrgtbl j)) ↔ AllocUnaliased k call := by
  have hpages : ∀ {pgn : Addr} {res : Option Addr} {k₁ : Krnl m}, PageStep k pgn res k₁ →
      ∀ i j, Unaliased (k₁.mm.symrgtbl i) (k₁.mm.symrgtbl j) := by
    intro pgn res k₁ hpage
    rw [hpage.frame.2.1]
    exact h
  cases hstep with
  | hit hindex hget =>
      rw [allocUnaliased_iff harea hindex, handsOut_hit hget]
      exact unaliased_update_iff h _ _
  | grow hindex hget =>
      rw [allocUnaliased_iff harea hindex, handsOut_grow hget]
      exact unaliased_update_iff h _ _
  | freed hindex hlive =>
      have hempty : VmRg.Empty ⟨0, 0⟩ := BitVec.le_refl _
      refine iff_of_true ?_ trivial
      exact (unaliased_update_iff h _ _).mpr
        ⟨(unaliased_of_empty hempty _).1, fun j _ => unaliased_of_empty hempty _⟩
  | notFreed => exact iff_of_true h trivial
  | rejected htarget => exact iff_of_true h (allocUnaliased_of_target htarget)
  | failed htarget _ hpage =>
      exact iff_of_true (hpages hpage) (allocUnaliased_of_target htarget)
  | read _ hpage => exact iff_of_true (hpages hpage) trivial
  | written _ hpage => exact iff_of_true (fun i j => hpages hpage i j) trivial

/-- Address translation does not alias, as long as each allocation hands out a region that,
moved by multiples of 4 MiB, meets neither itself nor a region of another cell.  After such
steps, the next instruction keeps it so if and only if it meets the condition. -/
theorem no_alias (b : Boot) {es : List (MemCall × Answer)}
    (hrun : Lts.Run (Stepped fun k call _ => AllocUnaliased k call) b.krnl es k) :
    NoAlias k ∧ ∀ call a k', call.run k = some (a, k') →
      (NoAlias k' ↔ AllocUnaliased k call) := by
  have hinv := invariant_of_boot
    (I := fun k => ∀ i j, Unaliased (k.mm.symrgtbl i) (k.mm.symrgtbl j)) b hrun
    (fun _ _ => Or.inl (BitVec.le_refl _))
    fun _ _ _ _ _ harea h hok hstep => (unaliased_step_iff harea h hstep).mpr hok
  obtain ⟨⟨vma, harea⟩, hall⟩ := hinv
  refine ⟨(noAlias_iff harea).mpr hall, ?_⟩
  intro call a k' hcall
  have hstep := run_step harea hcall
  obtain ⟨vma', harea'⟩ := hstep.oneArea harea
  rw [noAlias_iff harea', unaliased_step_iff harea hall hstep]

/-- The multiple of 4 MiB that brings the first region closest to the end of the second. -/
theorem unaliased_iff_closest (r s : VmRg) :
    Unaliased r s ↔ r.Empty ∨ s.Empty ∨
      (s.rgEnd.toNat - 1 - r.rgStart.toNat) / 2 ^ 22 = 0 ∨
      r.rgEnd.toNat + (s.rgEnd.toNat - 1 - r.rgStart.toNat) / 2 ^ 22 * 2 ^ 22 ≤
        s.rgStart.toNat := by
  unfold Unaliased
  by_cases hr : r.Empty
  · simp [hr]
  by_cases hs : s.Empty
  · simp [hs]
  simp only [hr, hs, false_or]
  unfold VmRg.Empty at hr hs
  rw [BitVec.le_def] at hr hs
  constructor
  · intro hall
    have hq := hall ((s.rgEnd.toNat - 1 - r.rgStart.toNat) / 2 ^ 22)
    omega
  · intro hclosest q hq
    omega

instance (r s : VmRg) : Decidable (Unaliased r s) :=
  decidable_of_iff _ (unaliased_iff_closest r s).symm

instance (sym : SymRgTbl) (i : Fin maxSymtblSz) (rg : VmRg) : Decidable (FitsIn sym i rg) :=
  inferInstanceAs (Decidable (_ ∧ ∀ j, j ≠ i → _ ∧ _))

instance (k : Krnl m) (call : MemCall) : Decidable (AllocUnaliased k call) :=
  match call with
  | .alloc _ rgid size =>
      have (vma : VmArea) : Decidable (∀ i ∈ symIndex rgid,
          FitsIn k.mm.symrgtbl i (vma.handsOut size)) :=
        Option.decidableForallMem
          (p := fun i => FitsIn k.mm.symrgtbl i (vma.handsOut size)) _
      List.decidableBAll (fun vma : VmArea => ∀ i ∈ symIndex rgid,
        FitsIn k.mm.symrgtbl i (vma.handsOut size)) _
  | .free _ => instDecidableTrue
  | .read _ _ => instDecidableTrue
  | .write _ _ _ => instDecidableTrue

/-- Two regions that follow each other. -/
theorem no_alias_two :
    ∃ (es : List (MemCall × Answer)) (k : Krnl countingMalloc),
      Lts.Run (Stepped fun k call _ => AllocUnaliased k call) smallBoot.krnl es k ∧
      (k.mm.symrgtbl 0 = ⟨0, 300⟩ ∧ k.mm.symrgtbl 1 = ⟨300, 400⟩) ∧ NoAlias k := by
  obtain ⟨es, k, hrun, hobs⟩ := Lts.record_observe
    (fun (k : Krnl countingMalloc) call _ => AllocUnaliased k call)
    (fun k call => call.run k) smallBoot.krnl
    [.alloc soleCaller 0 300, .alloc soleCaller 1 100]
    (fun _ k => (k.mm.symrgtbl 0, k.mm.symrgtbl 1))
    (v := (⟨0, 300⟩, ⟨300, 400⟩)) (by decide +kernel)
  exact ⟨es, k, hrun, Prod.mk.inj hobs, (no_alias smallBoot hrun).1⟩

/-- In a region of 4 MiB and one byte, the first and the last byte have the same page and
offset. -/
theorem not_no_alias :
    ¬ ∀ (b : Boot) (es : List (MemCall × Answer)) (k : Krnl countingMalloc),
      Lts.Run (Stepped fun _ _ _ => True) b.krnl es k → NoAlias k := by
  intro hclaim
  obtain ⟨es, k, hrun, hobs⟩ := Lts.record_observe
    (fun _ _ _ => True) (fun (k : Krnl countingMalloc) (call : MemCall) => call.run k)
    smallBoot.krnl [.alloc soleCaller 0 0x400001]
    (fun _ k => (k.mm.mmap.map VmArea.vmId, k.mram.rdmflg, k.mm.symrgtbl 0))
    (v := ([0], true, ⟨0, 0x400001⟩)) (by decide +kernel)
  simp only [Prod.mk.injEq] at hobs
  obtain ⟨hid, hrandom, hcell⟩ := hobs
  obtain ⟨vma, hmmap, hvmId⟩ := List.map_eq_singleton_iff.mp hid
  have hall := (noAlias_iff ⟨hmmap, hvmId, hrandom⟩).mp (hclaim smallBoot es k hrun)
  have hbad := hall 0 0
  rw [hcell] at hbad
  exact absurd hbad (by decide)

end Memory
end Hdh
