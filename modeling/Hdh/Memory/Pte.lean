import Mathlib.Algebra.Order.Ring.Nat

/-!
# Page table entries

The macros of `bitops.h`, `mm.h` and `mm64.h`.  `addr_t` has 64 bits, but the
masks of a page table entry are 32-bit numbers: their complements are formed in
32 bits before they meet the 64-bit entry, so that `CLRBIT` and `SETVAL` also
clear the upper half of the entry.  The entry is read back as a `uint32_t`.

Main results:

- Theorem `pageView_setFpn_field`: an entry set for a frame is resident in the part of
  the number that its field holds.
- Theorem `pageView_setSwap`: an entry set for a swap frame is swapped out to the part
  of the offset that its field holds.
- Theorem `pagingFpn_setSwap`: a part of the offset is read as a frame number.
-/

namespace Hdh
namespace Memory

/-- `addr_t`. -/
abbrev Addr := BitVec 64

/-- A number that fits an `int` is not changed by the conversion. -/
theorem toInt_setWidth_of_lt {x : BitVec 64} (hx : x.toNat < 2 ^ 31) :
    (x.setWidth 32).toInt = x.toNat := by
  have hlow : (x.setWidth 32).toNat = x.toNat := by
    rw [BitVec.toNat_setWidth]
    omega
  rw [BitVec.toInt_eq_toNat_of_lt (by omega), hlow]

/-- Nor is one that is not negative when an `int` becomes an `addr_t`. -/
theorem signExtend_of_lt {x : BitVec 32} (h : x.toNat < 2 ^ 31) :
    (x.signExtend 64).toNat = x.toNat := by
  rw [BitVec.signExtend_eq_setWidth_of_msb_false]
  · rw [BitVec.toNat_setWidth]
    omega
  · rw [BitVec.msb_eq_false_iff_two_mul_lt]
    omega

/-- `GENMASK64`. -/
def genmask64 (h l : Nat) : BitVec 64 :=
  (BitVec.allOnes 64 <<< l) &&& (BitVec.allOnes 64 >>> (64 - h - 1))

/-- `GENMASK`. -/
def genmask (h l : Nat) : BitVec 32 :=
  (BitVec.allOnes 32 <<< l) &&& (BitVec.allOnes 32 >>> (32 - h - 1))

/-- `BIT`. -/
def bit (nr : Nat) : BitVec 32 :=
  1#32 <<< nr

/-- `SETBIT` on a 64-bit variable. -/
def setBit (v : BitVec 64) (mask : BitVec 32) : BitVec 64 :=
  v ||| mask.setWidth 64

/-- `CLRBIT` on a 64-bit variable. -/
def clrBit (v : BitVec 64) (mask : BitVec 32) : BitVec 64 :=
  v &&& (~~~mask).setWidth 64

/-- `SETVAL` on a 64-bit variable. -/
def setVal (v value : BitVec 64) (mask : BitVec 32) (offst : Nat) : BitVec 64 :=
  (v &&& (~~~mask).setWidth 64) ||| ((value <<< offst) &&& mask.setWidth 64)

/-- `GETVAL` on a 32-bit value. -/
def getVal (v mask : BitVec 32) (offst : Nat) : BitVec 32 :=
  (v &&& mask) >>> offst

/-- `PAGING_PTE_PRESENT_MASK`. -/
def presentMask : BitVec 32 := bit 31

/-- `PAGING_PTE_SWAPPED_MASK`. -/
def swappedMask : BitVec 32 := bit 30

/-- `PAGING_PTE_FPN_MASK`. -/
def fpnMask : BitVec 32 := genmask 12 0

/-- `PAGING_PTE_SWPTYP_MASK`. -/
def swptypMask : BitVec 32 := genmask 4 0

/-- `PAGING_PTE_SWPOFF_MASK`. -/
def swpoffMask : BitVec 32 := genmask 25 5

/-- `PAGING_PAGE_PRESENT`. -/
def pagePresent (pte : BitVec 32) : Bool :=
  pte &&& presentMask != 0

/-- The same test for `PAGING_PTE_SWAPPED_MASK`. -/
def pageSwapped (pte : BitVec 32) : Bool :=
  pte &&& swappedMask != 0

/-- `PAGING_FPN`, as it is assigned to an `addr_t`. -/
def pagingFpn (pte : BitVec 32) : Addr :=
  (getVal pte fpnMask 0).setWidth 64

/-- `PAGING_SWP`, as it is assigned to an `addr_t`. -/
def pagingSwp (pte : BitVec 32) : Addr :=
  (getVal pte swpoffMask 5).setWidth 64

/-- The field of `PAGING_PTE_SWPTYP_MASK`. -/
def pagingSwptyp (pte : BitVec 32) : BitVec 32 :=
  getVal pte swptypMask 0

/-- What `pte_set_fpn` does to an entry. -/
def entrySetFpn (fpn : Addr) (pte : BitVec 64) : BitVec 64 :=
  setVal (clrBit (setBit pte presentMask) swappedMask) fpn fpnMask 0

/-- What `pte_set_swap` does to an entry. -/
def entrySetSwap (swptyp : BitVec 32) (swpoff : Addr) (pte : BitVec 64) :
    BitVec 64 :=
  setVal
    (setVal (setBit (setBit pte presentMask) swappedMask)
      (swptyp.setWidth 64) swptypMask 0)
    swpoff swpoffMask 5

/-- What an entry says about its page. -/
inductive PageView
  | absent
  | resident (fpn : Addr)
  | swapped (swpoff : Addr)
deriving DecidableEq

/-- The meaning of an entry. -/
def pageView (pte : BitVec 32) : PageView :=
  if pagePresent pte then
    if pageSwapped pte then .swapped (pagingSwp pte) else .resident (pagingFpn pte)
  else .absent

/-! ## The bits of the masks -/

/-- `GENMASK64(h, l)` has the bits `l` to `h`. -/
theorem getLsbD_genmask64 {h l i : Nat} (hh : h < 64) :
    (genmask64 h l).getLsbD i = decide (l ≤ i ∧ i ≤ h) := by
  unfold genmask64
  rw [BitVec.getLsbD_and, BitVec.getLsbD_shiftLeft, BitVec.getLsbD_ushiftRight,
    BitVec.getLsbD_allOnes, BitVec.getLsbD_allOnes]
  by_cases hl : l ≤ i <;> by_cases hi : i ≤ h <;> simp [hl, hi] <;> omega

/-- So has `GENMASK(h, l)`, in 32 bits. -/
theorem getLsbD_genmask {h l i : Nat} (hh : h < 32) :
    (genmask h l).getLsbD i = decide (l ≤ i ∧ i ≤ h) := by
  unfold genmask
  rw [BitVec.getLsbD_and, BitVec.getLsbD_shiftLeft, BitVec.getLsbD_ushiftRight,
    BitVec.getLsbD_allOnes, BitVec.getLsbD_allOnes]
  by_cases hl : l ≤ i <;> by_cases hi : i ≤ h <;> simp [hl, hi] <;> omega

/-- `BIT(nr)` is the bit `nr`. -/
theorem getLsbD_bit {nr i : Nat} (hnr : nr < 32) :
    (bit nr).getLsbD i = decide (i = nr) := by
  unfold bit
  rw [BitVec.getLsbD_shiftLeft]
  by_cases hi : i = nr
  · subst hi
    simp [hnr]
  · by_cases hlt : i < nr
    · simp [hi, hlt]
    · simp [hi, hlt]
      omega

/-! ## The bits of the entries -/

/-- `SETBIT` on the lower half of an entry. -/
theorem getLsbD_setBit (v : BitVec 64) (mask : BitVec 32) {i : Nat} (hi : i < 32) :
    (setBit v mask).getLsbD i = (v.getLsbD i || mask.getLsbD i) := by
  have hi64 : i < 64 := by omega
  simp [setBit, hi64]

/-- `CLRBIT` on the lower half of an entry. -/
theorem getLsbD_clrBit (v : BitVec 64) (mask : BitVec 32) {i : Nat} (hi : i < 32) :
    (clrBit v mask).getLsbD i = (v.getLsbD i && !mask.getLsbD i) := by
  have hi64 : i < 64 := by omega
  simp [clrBit, hi, hi64]

/-- `SETVAL` on the lower half: the field takes the bits of the value, the others stay. -/
theorem getLsbD_setVal (v value : BitVec 64) (mask : BitVec 32) (offst : Nat)
    {i : Nat} (hi : i < 32) :
    (setVal v value mask offst).getLsbD i =
      (v.getLsbD i && !mask.getLsbD i ||
        (!decide (i < offst) && value.getLsbD (i - offst) && mask.getLsbD i)) := by
  have hi64 : i < 64 := by omega
  unfold setVal
  rw [BitVec.getLsbD_or, BitVec.getLsbD_and, BitVec.getLsbD_and,
    BitVec.getLsbD_shiftLeft, BitVec.getLsbD_setWidth, BitVec.getLsbD_setWidth,
    BitVec.getLsbD_not]
  simp only [hi, hi64, decide_true, Bool.true_and]

/-- The lower half after `pte_set_fpn`: the frame number, PRESENT, and not SWAPPED. -/
theorem getLsbD_entrySetFpn (fpn : Addr) (pte : BitVec 64) {i : Nat} (hi : i < 32) :
    (entrySetFpn fpn pte).getLsbD i =
      if i < 13 then fpn.getLsbD i
      else if i = 31 then true else if i = 30 then false else pte.getLsbD i := by
  unfold entrySetFpn
  rw [getLsbD_setVal _ _ _ _ hi, getLsbD_clrBit _ _ hi, getLsbD_setBit _ _ hi,
    fpnMask, swappedMask, presentMask, getLsbD_genmask (by omega),
    getLsbD_bit (by omega), getLsbD_bit (by omega)]
  by_cases hlow : i < 13
  · have hle : i ≤ 12 := by omega
    simp [hlow, hle]
  · have hle : ¬ i ≤ 12 := by omega
    by_cases h31 : i = 31
    · simp [h31]
    · by_cases h30 : i = 30
      · simp [h30]
      · simp [hlow, hle, h31, h30]

/-- The lower half after `pte_set_swap`: the type, the offset, PRESENT and SWAPPED. -/
theorem getLsbD_entrySetSwap (swptyp : BitVec 32) (swpoff : Addr) (pte : BitVec 64)
    {i : Nat} (hi : i < 32) :
    (entrySetSwap swptyp swpoff pte).getLsbD i =
      if i < 5 then swptyp.getLsbD i
      else if i < 26 then swpoff.getLsbD (i - 5)
      else if i = 31 ∨ i = 30 then true else pte.getLsbD i := by
  unfold entrySetSwap
  rw [getLsbD_setVal _ _ _ _ hi, getLsbD_setVal _ _ _ _ hi, getLsbD_setBit _ _ hi,
    getLsbD_setBit _ _ hi, swpoffMask, swptypMask, swappedMask, presentMask,
    getLsbD_genmask (by omega), getLsbD_genmask (by omega),
    getLsbD_bit (by omega), getLsbD_bit (by omega)]
  have hi64 : i < 64 := by omega
  by_cases htyp : i < 5
  · have hle : i ≤ 4 := by omega
    have hoff : ¬ 5 ≤ i := by omega
    simp [htyp, hle, hoff, hi64]
  · have hle : ¬ i ≤ 4 := by omega
    have h5 : 5 ≤ i := by omega
    by_cases hoff : i < 26
    · have hle' : i ≤ 25 := by omega
      simp [htyp, hoff, hle', h5]
    · have hle' : ¬ i ≤ 25 := by omega
      by_cases h31 : i = 31
      · simp [h31]
      · by_cases h30 : i = 30
        · simp [h30]
        · simp [htyp, hoff, hle, hle', h31, h30]

/-! ## What an entry says -/

/-- The test of one bit. -/
theorem and_bit_ne_zero (v : BitVec 32) {nr : Nat} (hnr : nr < 32) :
    (v &&& bit nr != 0) = v.getLsbD nr := by
  cases hbit : v.getLsbD nr with
  | true =>
      rw [bne_iff_ne]
      intro hzero
      have := congrArg (fun w => BitVec.getLsbD w nr) hzero
      simp [getLsbD_bit hnr, hbit] at this
  | false =>
      rw [bne_eq_false_iff_eq]
      apply BitVec.eq_of_getLsbD_eq
      intro i hi
      rw [BitVec.getLsbD_and, getLsbD_bit hnr]
      by_cases heq : i = nr
      · simp [heq, hbit]
      · simp [heq]

/-- PRESENT is the bit 31. -/
theorem pagePresent_eq (pte : BitVec 32) : pagePresent pte = pte.getLsbD 31 :=
  and_bit_ne_zero pte (by omega)

/-- SWAPPED is the bit 30. -/
theorem pageSwapped_eq (pte : BitVec 32) : pageSwapped pte = pte.getLsbD 30 :=
  and_bit_ne_zero pte (by omega)

/-- `PAGING_FPN` reads the bits 0 to 12. -/
theorem getLsbD_pagingFpn (pte : BitVec 32) (i : Nat) :
    (pagingFpn pte).getLsbD i = (decide (i < 13) && pte.getLsbD i) := by
  unfold pagingFpn getVal fpnMask
  by_cases hi : i < 13
  · have hle : i ≤ 12 := by omega
    have hi64 : i < 64 := by omega
    simp [getLsbD_genmask, hi, hle, hi64]
  · have hle : ¬ i ≤ 12 := by omega
    simp [getLsbD_genmask, hi, hle]

/-- `PAGING_SWP` reads the bits 5 to 25. -/
theorem getLsbD_pagingSwp (pte : BitVec 32) (i : Nat) :
    (pagingSwp pte).getLsbD i = (decide (i < 21) && pte.getLsbD (5 + i)) := by
  unfold pagingSwp getVal swpoffMask
  by_cases hi : i < 21
  · have hle : 5 + i ≤ 25 := by omega
    have hi64 : i < 64 := by omega
    have hi64' : 5 + i < 64 := by omega
    simp [getLsbD_genmask, hi, hle, hi64, hi64']
  · have hle : ¬ 5 + i ≤ 25 := by omega
    simp [getLsbD_genmask, hi, hle]

/-- The type is in the bits 0 to 4. -/
theorem getLsbD_pagingSwptyp (pte : BitVec 32) (i : Nat) :
    (pagingSwptyp pte).getLsbD i = (decide (i < 5) && pte.getLsbD i) := by
  unfold pagingSwptyp getVal swptypMask
  by_cases hi : i < 5
  · have hle : i ≤ 4 := by omega
    simp [getLsbD_genmask, hi, hle]
  · have hle : ¬ i ≤ 4 := by omega
    simp [getLsbD_genmask, hi, hle]

/-- The frame numbers that fit the field of an entry. -/
def FpnFits (fpn : Addr) : Prop := fpn.toNat < 2 ^ 13

/-- The swap offsets that fit the field of an entry. -/
def SwpoffFits (swpoff : Addr) : Prop := swpoff.toNat < 2 ^ 21

/-- The swap types that fit the field of an entry. -/
def SwptypFits (swptyp : BitVec 32) : Prop := swptyp.toNat < 2 ^ 5

/-- The part of a frame number that its field holds. -/
def fpnField (fpn : Addr) : Addr := (fpn.setWidth 13).setWidth 64

/-- The field cuts a frame number off after 13 bits. -/
theorem toNat_fpnField (fpn : Addr) : (fpnField fpn).toNat = fpn.toNat % 2 ^ 13 := by
  simp only [fpnField, BitVec.toNat_setWidth]
  omega

/-- A frame number that fits is stored as it is. -/
theorem fpnField_of_fits {fpn : Addr} (hfits : FpnFits fpn) : fpnField fpn = fpn := by
  apply BitVec.eq_of_toNat_eq
  rw [toNat_fpnField, Nat.mod_eq_of_lt hfits]

/-- Every frame number that is read fits its field. -/
theorem pagingFpn_fits (pte : BitVec 32) : FpnFits (pagingFpn pte) := by
  apply Nat.lt_pow_two_of_testBit
  intro i hi
  have hbit := getLsbD_pagingFpn pte i
  rwa [decide_eq_false (by omega), Bool.false_and] at hbit

/-- What `pte_set_fpn` stores, `PAGING_FPN` reads. -/
theorem pagingFpn_setFpn_field (fpn : Addr) (pte : BitVec 64) :
    pagingFpn ((entrySetFpn fpn pte).setWidth 32) = fpnField fpn := by
  apply BitVec.eq_of_getLsbD_eq
  intro i hi
  rw [getLsbD_pagingFpn, fpnField, BitVec.getLsbD_setWidth, BitVec.getLsbD_setWidth]
  by_cases hlow : i < 13
  · have hi32 : i < 32 := by omega
    rw [BitVec.getLsbD_setWidth, getLsbD_entrySetFpn _ _ hi32]
    simp only [hlow, hi32, hi, decide_true, if_true, Bool.true_and]
  · simp [hlow]

/-- The frame number is read back when it fits. -/
theorem pagingFpn_setFpn {fpn : Addr} (hfits : FpnFits fpn) (pte : BitVec 64) :
    pagingFpn ((entrySetFpn fpn pte).setWidth 32) = fpn := by
  rw [pagingFpn_setFpn_field, fpnField_of_fits hfits]

/-- The part of a swap offset that its field holds. -/
def swapSlot (swpoff : Addr) : Addr := (swpoff.setWidth 21).setWidth 64

/-- A swap offset that fits is stored as it is. -/
theorem swapSlot_of_fits {swpoff : Addr} (hfits : SwpoffFits swpoff) :
    swapSlot swpoff = swpoff := by
  apply BitVec.eq_of_toNat_eq
  unfold SwpoffFits at hfits
  simp only [swapSlot, BitVec.toNat_setWidth]
  omega

/-- What `pte_set_swap` stores, `PAGING_SWP` reads. -/
theorem pagingSwp_setSwap (swptyp : BitVec 32) (swpoff : Addr) (pte : BitVec 64) :
    pagingSwp ((entrySetSwap swptyp swpoff pte).setWidth 32) = swapSlot swpoff := by
  apply BitVec.eq_of_getLsbD_eq
  intro i hi
  rw [getLsbD_pagingSwp, swapSlot]
  by_cases hlow : i < 21
  · have hi32 : 5 + i < 32 := by omega
    have htyp : ¬ 5 + i < 5 := by omega
    have hoff : 5 + i < 26 := by omega
    simp [getLsbD_entrySetSwap _ _ _ hi32, hlow, hi32, hoff, htyp, hi]
  · simp [hlow]

/-- The swap type is read back when it fits. -/
theorem pagingSwptyp_setSwap {swptyp : BitVec 32} (hfits : SwptypFits swptyp)
    (swpoff : Addr) (pte : BitVec 64) :
    pagingSwptyp ((entrySetSwap swptyp swpoff pte).setWidth 32) = swptyp := by
  apply BitVec.eq_of_getLsbD_eq
  intro i hi
  rw [getLsbD_pagingSwptyp, BitVec.getLsbD_setWidth, getLsbD_entrySetSwap _ _ _ hi]
  by_cases hlow : i < 5
  · simp [hlow, hi]
  · -- the bits above the field are 0 because the type fits
    have hzero : swptyp.getLsbD i = false :=
      Nat.testBit_lt_two_pow (lt_of_lt_of_le hfits (Nat.pow_le_pow_right (by omega) (by omega)))
    simp [hlow, hzero]

/-- The frame number that is read from an entry set for a swap frame: the two fields
overlap. -/
def aliasFpn (swpoff : Addr) : Addr := (swpoff.setWidth 8).setWidth 64 <<< 5

/-- The frame that a swap offset is taken for is a multiple of 32. -/
theorem toNat_aliasFpn (swpoff : Addr) :
    (aliasFpn swpoff).toNat = swpoff.toNat % 256 * 32 := by
  rw [aliasFpn, BitVec.toNat_shiftLeft, BitVec.toNat_setWidth, BitVec.toNat_setWidth,
    Nat.shiftLeft_eq]
  omega

/-- It depends on the part of the offset that is stored only. -/
theorem aliasFpn_swapSlot (swpoff : Addr) : aliasFpn (swapSlot swpoff) = aliasFpn swpoff := by
  apply BitVec.eq_of_toNat_eq
  rw [toNat_aliasFpn, toNat_aliasFpn, swapSlot, BitVec.toNat_setWidth,
    BitVec.toNat_setWidth]
  omega

/-- `PAGING_FPN` of a swapped entry reads the offset as a frame number. -/
theorem pagingFpn_setSwap (swpoff : Addr) (pte : BitVec 64) :
    pagingFpn ((entrySetSwap 0 swpoff pte).setWidth 32) = aliasFpn swpoff := by
  apply BitVec.eq_of_getLsbD_eq
  intro i hi
  rw [getLsbD_pagingFpn, aliasFpn, BitVec.getLsbD_shiftLeft, BitVec.getLsbD_setWidth,
    BitVec.getLsbD_setWidth]
  by_cases hlow : i < 13
  · have hi32 : i < 32 := by omega
    have hoff : i < 26 := by omega
    have hslot : i - 5 < 8 := by omega
    have hslot64 : i - 5 < 64 := by omega
    rw [BitVec.getLsbD_setWidth, getLsbD_entrySetSwap _ _ _ hi32]
    by_cases htyp : i < 5
    · simp [htyp]
    · simp [htyp, hoff, hlow, hi32, hi, hslot, hslot64]
  · have hslot : ¬ i - 5 < 8 := by omega
    simp [hlow, hslot]

/-- `pte_set_fpn` leaves the entry present. -/
theorem pagePresent_setFpn (fpn : Addr) (pte : BitVec 64) :
    pagePresent ((entrySetFpn fpn pte).setWidth 32) = true := by
  rw [pagePresent_eq, BitVec.getLsbD_setWidth, getLsbD_entrySetFpn _ _ (by omega)]
  simp

/-- So does `pte_set_swap`. -/
theorem pagePresent_setSwap (swptyp : BitVec 32) (swpoff : Addr) (pte : BitVec 64) :
    pagePresent ((entrySetSwap swptyp swpoff pte).setWidth 32) = true := by
  rw [pagePresent_eq, BitVec.getLsbD_setWidth,
    getLsbD_entrySetSwap _ _ _ (by omega)]
  simp

/-- An entry is not swapped after `pte_set_fpn`. -/
theorem pageSwapped_setFpn (fpn : Addr) (pte : BitVec 64) :
    pageSwapped ((entrySetFpn fpn pte).setWidth 32) = false := by
  rw [pageSwapped_eq, BitVec.getLsbD_setWidth, getLsbD_entrySetFpn _ _ (by omega)]
  simp

/-- It is after `pte_set_swap`. -/
theorem pageSwapped_setSwap (swptyp : BitVec 32) (swpoff : Addr) (pte : BitVec 64) :
    pageSwapped ((entrySetSwap swptyp swpoff pte).setWidth 32) = true := by
  rw [pageSwapped_eq, BitVec.getLsbD_setWidth,
    getLsbD_entrySetSwap _ _ _ (by omega)]
  simp

/-- An entry set for a frame is resident in as much of the number as the field holds. -/
theorem pageView_setFpn_field (fpn : Addr) (pte : BitVec 64) :
    pageView ((entrySetFpn fpn pte).setWidth 32) = .resident (fpnField fpn) := by
  rw [pageView, pagePresent_setFpn, pageSwapped_setFpn, pagingFpn_setFpn_field]
  rfl

/-- An entry set for a swap frame is swapped out, to as much of the offset as the
field holds. -/
theorem pageView_setSwap (swptyp : BitVec 32) (swpoff : Addr) (pte : BitVec 64) :
    pageView ((entrySetSwap swptyp swpoff pte).setWidth 32) =
      .swapped (swapSlot swpoff) := by
  rw [pageView, pagePresent_setSwap, pageSwapped_setSwap, pagingSwp_setSwap]
  rfl

/-- A page is absent when its entry is not PRESENT. -/
theorem pageView_eq_absent_iff (pte : BitVec 32) :
    pageView pte = .absent ↔ pagePresent pte = false := by
  unfold pageView
  cases hpresent : pagePresent pte
  · simp
  · cases hswapped : pageSwapped pte <;> simp

/-- The entry of a resident page names its frame. -/
theorem pageView_eq_resident {pte : BitVec 32} {fpn : Addr}
    (h : pageView pte = .resident fpn) :
    pagePresent pte = true ∧ pagingFpn pte = fpn := by
  unfold pageView at h
  split_ifs at h with hpresent
  cases h
  exact ⟨hpresent, rfl⟩

end Memory
end Hdh
