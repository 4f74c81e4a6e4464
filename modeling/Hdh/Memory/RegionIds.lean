import Hdh.Memory.Allocator

/-!
# Region identifiers

`symrgtbl` has `PAGING_MAX_SYMTBL_SZ` cells, and the field behind it is `fifo_pgn`.  `__alloc`
writes to the cell without a check, and the checks of `get_symrg_byid` and `__free` admit the
index that is one too large.

Main results:

- Theorem `accessAddr_outside`: what `__read` and `__write` do with identifiers outside of the
  table.
- Theorem `ids_validated_iff`: which instructions keep to the table.
-/

namespace Hdh
namespace Memory

variable {m : Radix.Malloc Nat 0} {k k' : Krnl m}

/-- The indices at which `__read` and `__write` access `symrgtbl`. -/
def currgAccesses (k : Krnl m) (rgid : Int) : List Int :=
  match getVmaByNum k.mm.mmap 0 with
  | some (some _) => if symInvalid rgid then [] else [rgid]
  | _ => []

/-- The indices at which an instruction accesses `symrgtbl`. -/
def MemCall.symAccesses (k : Krnl m) : MemCall → List Int
  | .alloc _ rgid _ =>
      match getVmaByNum k.mm.mmap 0 with
      | some (some _) => [rgid]
      | _ => []
  | .free rgid => if symInvalid rgid then [] else [rgid]
  | .read rgid _ => currgAccesses k rgid
  | .write rgid _ _ => currgAccesses k rgid

/-- The identifier is that of a cell. -/
def IdInTable (rgid : Int) : Prop :=
  0 ≤ rgid ∧ rgid < maxSymtblSz

instance (rgid : Int) : Decidable (IdInTable rgid) :=
  inferInstanceAs (Decidable (_ ∧ _))

/-- The table, the FIFO list behind it, the free regions and the breaks are the same. -/
structure Untouched (k k' : Krnl m) : Prop where
  symrgtbl : k'.mm.symrgtbl = k.mm.symrgtbl
  fifoPgn : k'.mm.fifoPgn = k.mm.fifoPgn
  mmap : (k'.mm.mmap.map fun vma => (vma.vmFreergList, vma.sbrk)) =
    k.mm.mmap.map fun vma => (vma.vmFreergList, vma.sbrk)

/-- The instruction is answered by -1, and changes nothing. -/
def Refused (k : Krnl m) (call : MemCall) : Prop :=
  ∃ a k', call.run k = some (a, k') ∧ a.stat = -1 ∧ Untouched k k'

/-- The instruction accesses cells of the table only, and it is refused when its identifier
is not that of a cell. -/
def IdsValidated (k : Krnl m) (call : MemCall) : Prop :=
  (∀ i ∈ call.symAccesses k, IdInTable i) ∧ (¬ IdInTable call.rgid → Refused k call)

/-- `__read` and `__write` keep to the table: the identifier is that of a cell, or there is
no area, or it is not the one behind the last cell. -/
def CurrgHandled (k : Krnl m) (rgid : Int) : Prop :=
  IdInTable rgid ∨ getVmaByNum k.mm.mmap 0 = some none ∨
    (rgid ≠ maxSymtblSz ∧ getVmaByNum k.mm.mmap 0 ≠ none)

/-- The instruction keeps to the table. -/
def IdHandled (k : Krnl m) : MemCall → Prop
  | .alloc _ rgid _ => IdInTable rgid
  | .free rgid => rgid ≠ maxSymtblSz
  | .read rgid _ => CurrgHandled k rgid
  | .write rgid _ _ => CurrgHandled k rgid

theorem untouched_rfl (k : Krnl m) : Untouched k k :=
  ⟨rfl, rfl, rfl⟩

theorem symIndex_eq_none_iff {rgid : Int} : symIndex rgid = none ↔ ¬ IdInTable rgid := by
  unfold symIndex IdInTable maxSymtblSz
  split_ifs with hin
  · refine iff_of_false (by simp) (not_not.mpr ?_)
    omega
  · refine iff_of_true rfl ?_
    omega

/-- Outside of the table, the check admits the index behind the last cell only. -/
theorem symInvalid_iff {rgid : Int} (hout : ¬ IdInTable rgid) :
    symInvalid rgid = true ↔ rgid ≠ maxSymtblSz := by
  unfold IdInTable at hout
  unfold symInvalid
  rw [Bool.or_eq_true, decide_eq_true_iff, decide_eq_true_iff]
  unfold maxSymtblSz at hout ⊢
  omega

/-- Outside of the table, an access is rejected without a look at the table, or it is not
defined. -/
theorem accessAddr_outside {rgid : Int} (hout : ¬ IdInTable rgid) (offset : Addr) :
    (accessAddr k 0 rgid offset = some none ∧ CurrgHandled k rgid ∧
        currgAccesses k rgid = []) ∨
      (accessAddr k 0 rgid offset = none ∧ ¬ CurrgHandled k rgid) := by
  have hindex := symIndex_eq_none_iff.mpr hout
  unfold accessAddr CurrgHandled currgAccesses
  cases hvma : getVmaByNum k.mm.mmap 0 with
  | none => exact Or.inr ⟨rfl, by simp [hout]⟩
  | some curVma =>
      cases curVma with
      | none => exact Or.inl ⟨by simp, by simp, rfl⟩
      | some pos =>
          cases hinvalid : symInvalid rgid with
          | true =>
              have hne := (symInvalid_iff hout).mp hinvalid
              exact Or.inl ⟨by simp, by simp [hne], by simp⟩
          | false =>
              have heq : rgid = maxSymtblSz := by
                by_contra hne
                rw [(symInvalid_iff hout).mpr hne] at hinvalid
                cases hinvalid
              refine Or.inr ⟨by simp [hindex], ?_⟩
              rintro (hin | hnull | ⟨hne, -⟩)
              · exact hout hin
              · cases hnull
              · exact hne heq

/-- `__read` and `__write` with an identifier outside of the table. -/
theorem refused_iff_of_target {call : MemCall} {rgid : Int} {offset : Addr}
    (htarget : call.target = some (rgid, offset)) (hout : ¬ IdInTable rgid) :
    Refused k call ↔ CurrgHandled k rgid := by
  have hrun : (accessAddr k 0 rgid offset = some none → Refused k call) ∧
      (accessAddr k 0 rgid offset = none → call.run k = none) := by
    rcases call.eq_of_target htarget with rfl | ⟨value, rfl⟩
    · refine ⟨fun haddr => ⟨⟨-1, none⟩, k, ?_, rfl, untouched_rfl k⟩, fun haddr => ?_⟩
      · simp [MemCall.run, read, haddr]
      · simp [MemCall.run, read, haddr]
    · refine ⟨fun haddr => ⟨⟨-1, none⟩, k, ?_, rfl, untouched_rfl k⟩, fun haddr => ?_⟩
      · simp [MemCall.run, write, haddr]
      · simp [MemCall.run, write, haddr]
  rcases accessAddr_outside (k := k) hout offset with
    ⟨haddr, hhandled, -⟩ | ⟨haddr, hnot⟩
  · exact iff_of_true (hrun.1 haddr) hhandled
  · refine iff_of_false ?_ hnot
    rintro ⟨a, k', hcall, -⟩
    rw [hrun.2 haddr] at hcall
    cases hcall

/-- `__read` and `__write` access the cell of their identifier at most. -/
theorem mem_currgAccesses {rgid i : Int} (hi : i ∈ currgAccesses k rgid) : i = rgid := by
  unfold currgAccesses at hi
  split at hi
  · split_ifs at hi
    · cases hi
    · exact List.mem_singleton.mp hi
  · cases hi

/-- A `READ` or a `WRITE`. -/
theorem idsValidated_iff_of_target {call : MemCall} {rgid : Int} {offset : Addr}
    (htarget : call.target = some (rgid, offset)) :
    IdsValidated k call ↔ CurrgHandled k rgid := by
  have hcall : call.symAccesses k = currgAccesses k rgid ∧ call.rgid = rgid := by
    rcases call.eq_of_target htarget with rfl | ⟨value, rfl⟩ <;> exact ⟨rfl, rfl⟩
  unfold IdsValidated
  rw [hcall.1, hcall.2]
  by_cases hin : IdInTable rgid
  · refine iff_of_true ⟨fun i hi => ?_, fun hout => absurd hin hout⟩ (Or.inl hin)
    rwa [mem_currgAccesses hi]
  · rw [refused_iff_of_target htarget hin]
    constructor
    · exact fun h => h.2 hin
    · intro hhandled
      refine ⟨fun i hi => ?_, fun _ => hhandled⟩
      rcases accessAddr_outside (k := k) hin offset with ⟨-, -, hnone⟩ | ⟨-, hnot⟩
      · rw [hnone] at hi
        cases hi
      · exact absurd hhandled hnot

/-- An `ALLOC` keeps to the table only when its identifier is that of a cell. -/
theorem idsValidated_alloc_iff {caller : Caller} {rgid : Int} {size : Addr} :
    IdsValidated k (.alloc caller rgid size) ↔ IdInTable rgid := by
  constructor
  · rintro ⟨haccess, hrefused⟩
    by_contra hout
    obtain ⟨a, k', hcall, -⟩ := hrefused hout
    have hindex := symIndex_eq_none_iff.mpr hout
    simp [MemCall.run, alloc, hindex] at hcall
  · intro hin
    refine ⟨fun i hi => ?_, fun hout => absurd hin hout⟩
    simp only [MemCall.symAccesses] at hi
    split at hi
    · rwa [List.mem_singleton.mp hi]
    · cases hi

/-- A `FREE` keeps to the table unless its identifier is the one behind the last cell. -/
theorem idsValidated_free_iff {rgid : Int} :
    IdsValidated k (.free rgid) ↔ rgid ≠ maxSymtblSz := by
  by_cases hin : IdInTable rgid
  · have hne : rgid ≠ maxSymtblSz := by
      unfold IdInTable at hin
      omega
    refine iff_of_true ⟨fun i hi => ?_, fun hout => absurd hin hout⟩ hne
    simp only [MemCall.symAccesses] at hi
    split_ifs at hi
    · cases hi
    · rwa [List.mem_singleton.mp hi]
  · rw [← symInvalid_iff hin]
    constructor
    · rintro ⟨-, hrefused⟩
      obtain ⟨a, k', hcall, -⟩ := hrefused hin
      have hindex := symIndex_eq_none_iff.mpr hin
      by_contra hvalid
      simp [MemCall.run, free, hvalid, hindex] at hcall
    · intro hinvalid
      refine ⟨fun i hi => ?_, fun _ => ⟨⟨-1, none⟩, k, ?_, rfl, untouched_rfl k⟩⟩
      · simp [MemCall.symAccesses, hinvalid] at hi
      · simp [MemCall.run, free, hinvalid]

/-- Which instructions keep to the table: an `ALLOC` for a cell, a `FREE` for any identifier but
the one behind the last cell, and a `READ` or a `WRITE` likewise as long as there is an area;
without an area they do not get to the table. -/
theorem ids_validated_iff (k : Krnl m) (call : MemCall) :
    IdsValidated k call ↔ IdHandled k call := by
  cases call with
  | alloc => exact idsValidated_alloc_iff
  | free => exact idsValidated_free_iff
  | read => exact idsValidated_iff_of_target rfl
  | write => exact idsValidated_iff_of_target rfl

/-- The cell behind the last one is cleared by a `FREE` of 30. -/
theorem not_ids_validated :
    ¬ ∀ (k : Krnl countingMalloc) (call : MemCall), IdsValidated k call := by
  intro hclaim
  have hin := (hclaim smallBoot.krnl (.free 30)).1 30 (by decide)
  exact absurd hin (by decide)

end Memory
end Hdh
