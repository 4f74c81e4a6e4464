import Hdh.Library.RadixTable
import Hdh.Memory.Pte

/-!
# The page table

Five levels of arrays of 512 words.  The words of the first four levels are
addresses of arrays, those of the last level are entries.  A word is a natural
number here: that no address is answered twice by `malloc` is an assumption on
all runs, however long.

Main results:

- Theorem `getPdFromPagenum_eq_iff`: the five indices determine the low 45 bits of
  the page number, and nothing else.
- Theorems `pteGetEntry_setFpn` and `pteGetEntry_setSwap`: an update changes the
  entry of its page only.
- Theorem `page_table_map`: after any sequence of calls, an entry is what the updates that
  name its page have made of it, exactly when the `int` product of `vmap_pgd_memset` leads
  no call to a page that is not meant.
- Theorem `pteGetEntry_last_update`: whatever an entry has held, it decodes to its last
  update.
-/

namespace Hdh
namespace Memory

/-- `PAGING64_ADDR_PGD_MASK`. -/
def addrPgdMask : Addr := genmask64 56 48

/-- `PAGING64_ADDR_P4D_MASK`. -/
def addrP4dMask : Addr := genmask64 47 39

/-- `PAGING64_ADDR_PUD_MASK`. -/
def addrPudMask : Addr := genmask64 38 30

/-- `PAGING64_ADDR_PMD_MASK`. -/
def addrPmdMask : Addr := genmask64 29 21

/-- `PAGING64_ADDR_PT_MASK`. -/
def addrPtMask : Addr := genmask64 20 12

/-- The five indices of a page. -/
structure PdIndex where
  pgd : Addr
  p4d : Addr
  pud : Addr
  pmd : Addr
  pt : Addr
deriving DecidableEq

/-- `get_pd_from_address`. -/
def getPdFromAddress (addr : Addr) : PdIndex where
  pgd := (addr &&& addrPgdMask) >>> 48
  p4d := (addr &&& addrP4dMask) >>> 39
  pud := (addr &&& addrPudMask) >>> 30
  pmd := (addr &&& addrPmdMask) >>> 21
  pt := (addr &&& addrPtMask) >>> 12

/-- `get_pd_from_pagenum`. -/
def getPdFromPagenum (pgn : Addr) : PdIndex :=
  getPdFromAddress (pgn <<< 12)

/-- The indices of the levels whose words are addresses. -/
def PdIndex.path (i : PdIndex) : List Addr :=
  [i.pgd, i.p4d, i.pud, i.pmd]

@[simp]
theorem PdIndex.length_path (i : PdIndex) : i.path.length = 4 := rfl

/-- Indices are equal when their paths and their last indices are. -/
theorem PdIndex.eq_iff (i j : PdIndex) :
    i = j ↔ i.path = j.path ∧ i.pt = j.pt := by
  cases i
  cases j
  simp [PdIndex.path, and_assoc]

/-- The page table of a memory whose tables come from `m`. -/
abbrev PageDir (m : Radix.Malloc Nat 0) := Radix.Table Addr m 4

variable {m : Radix.Malloc Nat 0}

/-- Walk to the entry, allocate the missing levels and change the entry. -/
def setPte (T : PageDir m) (pd : PdIndex) (f : BitVec 64 → BitVec 64) : PageDir m :=
  T.update pd.path pd.length_path pd.pt fun e => (f (BitVec.ofNat 64 e)).toNat

/-- `pte_set_swap`; it always answers 0. -/
def pteSetSwap (T : PageDir m) (pgn : Addr) (swptyp : BitVec 32) (swpoff : Addr) :
    Int × PageDir m :=
  (0, setPte T (getPdFromPagenum pgn) (entrySetSwap swptyp swpoff))

/-- `pte_set_fpn`; it always answers 0. -/
def pteSetFpn (T : PageDir m) (pgn fpn : Addr) : Int × PageDir m :=
  (0, setPte T (getPdFromPagenum pgn) (entrySetFpn fpn))

/-- `pte_get_entry`. -/
def pteGetEntry (T : PageDir m) (pgn : Addr) : BitVec 32 :=
  BitVec.ofNat 32 (T.get (getPdFromPagenum pgn).path (getPdFromPagenum pgn).pt)

/-- The pattern of `vmap_pgd_memset`. -/
def pattern : BitVec 64 := 0xdeadbeef

/-- `addr + (pgit * PAGING64_PAGESZ)`, whose product is an `int`. -/
def pageAddr (addr : Addr) (pgit : Nat) : Addr :=
  addr + (BitVec.ofNat 32 pgit * 4096#32).signExtend 64

/-- `vmap_pgd_memset`. -/
def vmapPgdMemset (T : PageDir m) (addr : Addr) (pgnum : Int) : Int × PageDir m :=
  (0, (List.range pgnum.toNat).foldl
    (fun T pgit => setPte T (getPdFromAddress (pageAddr addr pgit)) fun _ => pattern)
    T)

/-! ## The indices of a page -/

/-- An index is nine bits of the address. -/
theorem getLsbD_index (addr : Addr) {lo i : Nat} (hlo : lo + 8 < 64) :
    ((addr &&& genmask64 (lo + 8) lo) >>> lo).getLsbD i =
      (decide (i < 9) && addr.getLsbD (lo + i)) := by
  rw [BitVec.getLsbD_ushiftRight, BitVec.getLsbD_and, getLsbD_genmask64 hlo]
  by_cases hi : i < 9
  · have hle : i ≤ 8 := by omega
    simp [hi, hle]
  · have hle : ¬ i ≤ 8 := by omega
    simp [hi, hle]

/-- Indices of one level are equal when these nine bits are. -/
theorem index_eq_iff (a b : Addr) (lo : Nat) (hlo : lo + 8 < 64) :
    (a &&& genmask64 (lo + 8) lo) >>> lo = (b &&& genmask64 (lo + 8) lo) >>> lo ↔
      ∀ i < 9, a.getLsbD (lo + i) = b.getLsbD (lo + i) := by
  constructor
  · intro heq i hi
    have hbit := congrArg (fun v => BitVec.getLsbD v i) heq
    simpa only [getLsbD_index _ hlo, hi, decide_true, Bool.true_and] using hbit
  · intro hbits
    apply BitVec.eq_of_getLsbD_eq
    intro i _
    rw [getLsbD_index _ hlo, getLsbD_index _ hlo]
    by_cases hi : i < 9
    · rw [hbits i hi]
    · simp [hi]

/-- No index is past the 512 words of its array. -/
theorem index_lt (addr : Addr) (lo : Nat) (hlo : lo + 8 < 64) :
    ((addr &&& genmask64 (lo + 8) lo) >>> lo).toNat < 512 := by
  have hhigh : ∀ i, 9 ≤ i →
      ((addr &&& genmask64 (lo + 8) lo) >>> lo).toNat.testBit i = false := by
    intro i hi
    have hbit := getLsbD_index addr (i := i) hlo
    rwa [decide_eq_false (by omega), Bool.false_and] at hbit
  exact Nat.lt_pow_two_of_testBit _ hhigh

/-- A range of bits is its first nine and the rest. -/
theorem agree_split (a b : Addr) (lo n : Nat) :
    (∀ i < n + 9, a.getLsbD (lo + i) = b.getLsbD (lo + i)) ↔
      (∀ i < 9, a.getLsbD (lo + i) = b.getLsbD (lo + i)) ∧
        ∀ i < n, a.getLsbD (lo + 9 + i) = b.getLsbD (lo + 9 + i) := by
  constructor
  · intro h
    refine ⟨fun i hi => h i (by omega), fun i hi => ?_⟩
    rw [Nat.add_assoc]
    exact h (9 + i) (by omega)
  · rintro ⟨hlow, hhigh⟩ i hi
    by_cases h9 : i < 9
    · exact hlow i h9
    · have hbit := hhigh (i - 9) (by omega)
      rwa [Nat.add_assoc, Nat.add_sub_cancel' (Nat.not_lt.mp h9)] at hbit

/-- Two addresses have the same indices when they agree in the bits 12 to 56. -/
theorem getPdFromAddress_eq_iff (a b : Addr) :
    getPdFromAddress a = getPdFromAddress b ↔
      ∀ i < 45, a.getLsbD (12 + i) = b.getLsbD (12 + i) := by
  have hgroups : getPdFromAddress a = getPdFromAddress b ↔
      (∀ i < 9, a.getLsbD (48 + i) = b.getLsbD (48 + i)) ∧
      (∀ i < 9, a.getLsbD (39 + i) = b.getLsbD (39 + i)) ∧
      (∀ i < 9, a.getLsbD (30 + i) = b.getLsbD (30 + i)) ∧
      (∀ i < 9, a.getLsbD (21 + i) = b.getLsbD (21 + i)) ∧
      ∀ i < 9, a.getLsbD (12 + i) = b.getLsbD (12 + i) := by
    rw [← index_eq_iff a b 48 (by omega), ← index_eq_iff a b 39 (by omega),
      ← index_eq_iff a b 30 (by omega), ← index_eq_iff a b 21 (by omega),
      ← index_eq_iff a b 12 (by omega)]
    simp only [getPdFromAddress, PdIndex.mk.injEq]
    rfl
  rw [hgroups, agree_split a b 12 36, agree_split a b 21 27, agree_split a b 30 18,
    agree_split a b 39 9]
  constructor
  · rintro ⟨hpgd, hp4d, hpud, hpmd, hpt⟩
    exact ⟨hpt, hpmd, hpud, hp4d, hpgd⟩
  · rintro ⟨hpt, hpmd, hpud, hp4d, hpgd⟩
    exact ⟨hpgd, hp4d, hpud, hpmd, hpt⟩

/-- The part of a page number that the indices determine. -/
def pageKey (pgn : Addr) : BitVec 45 :=
  pgn.setWidth 45

/-- The five indices determine the low 45 bits of the page number. -/
theorem getPdFromPagenum_eq_iff (p q : Addr) :
    getPdFromPagenum p = getPdFromPagenum q ↔ pageKey p = pageKey q := by
  unfold getPdFromPagenum pageKey
  rw [getPdFromAddress_eq_iff]
  have hshift : ∀ (v : Addr) i, i < 45 → (v <<< 12).getLsbD (12 + i) = v.getLsbD i := by
    intro v i hi
    have hi64 : 12 + i < 64 := by omega
    have hlow : ¬ 12 + i < 12 := by omega
    rw [BitVec.getLsbD_shiftLeft, Nat.add_sub_cancel_left]
    simp only [hi64, hlow, decide_true, decide_false, Bool.not_false, Bool.true_and]
  constructor
  · intro h
    apply BitVec.eq_of_getLsbD_eq
    intro i hi
    have := h i hi
    rw [hshift p i hi, hshift q i hi] at this
    rw [BitVec.getLsbD_setWidth, BitVec.getLsbD_setWidth, this]
  · intro h i hi
    rw [hshift p i hi, hshift q i hi]
    have := congrArg (fun v => BitVec.getLsbD v i) h
    simpa only [BitVec.getLsbD_setWidth, hi, decide_true, Bool.true_and] using this

/-- An address has the indices of its page. -/
theorem getPdFromAddress_eq (addr : Addr) :
    getPdFromAddress addr = getPdFromPagenum (addr >>> 12) := by
  unfold getPdFromPagenum
  rw [getPdFromAddress_eq_iff]
  intro i hi
  have hi64 : 12 + i < 64 := by omega
  simp [hi64]

/-- Below `2 ^ 45` the key is the page number. -/
theorem pageKey_inj {p q : Addr} (hp : p.toNat < 2 ^ 45) (hq : q.toNat < 2 ^ 45)
    (h : pageKey p = pageKey q) : p = q := by
  apply BitVec.eq_of_toNat_eq
  have := congrArg BitVec.toNat h
  simpa only [pageKey, BitVec.toNat_setWidth, Nat.mod_eq_of_lt hp,
    Nat.mod_eq_of_lt hq] using this

/-! ## Entries -/

/-- The 64-bit entry of a page; 0 when a level is missing. -/
def pageEntry (T : PageDir m) (pgn : Addr) : BitVec 64 :=
  BitVec.ofNat 64 (T.get (getPdFromPagenum pgn).path (getPdFromPagenum pgn).pt)

/-- `pte_get_entry` reads the lower half of an entry. -/
theorem pteGetEntry_eq (T : PageDir m) (pgn : Addr) :
    pteGetEntry T pgn = (pageEntry T pgn).setWidth 32 := by
  unfold pteGetEntry pageEntry
  rw [BitVec.setWidth_ofNat_of_le (by omega)]

@[simp]
theorem pageEntry_empty (pgn : Addr) :
    pageEntry (Radix.Table.empty : PageDir m) pgn = 0 := by
  simp [pageEntry]

/-- An update changes the entries with the key of its page only. -/
theorem pageEntry_setPte (T : PageDir m) (pgn : Addr) (f : BitVec 64 → BitVec 64)
    (q : Addr) :
    pageEntry (setPte T (getPdFromPagenum pgn) f) q =
      if pageKey q = pageKey pgn then f (pageEntry T q) else pageEntry T q := by
  unfold pageEntry setPte
  rw [Radix.Table.get_update _ _ _ _ _ (PdIndex.length_path _)]
  have hkey : ((getPdFromPagenum q).path = (getPdFromPagenum pgn).path ∧
      (getPdFromPagenum q).pt = (getPdFromPagenum pgn).pt) ↔
        pageKey q = pageKey pgn := by
    rw [← PdIndex.eq_iff, getPdFromPagenum_eq_iff]
  by_cases hq : pageKey q = pageKey pgn
  · have hpd := (getPdFromPagenum_eq_iff q pgn).mpr hq
    rw [if_pos (hkey.mpr hq), if_pos hq, hpd, BitVec.ofNat_toNat, BitVec.setWidth_eq]
  · rw [if_neg (fun h => hq (hkey.mp h)), if_neg hq]

/-- What is read after `pte_set_fpn`. -/
theorem pteGetEntry_setFpn (T : PageDir m) (pgn fpn q : Addr) :
    pteGetEntry (pteSetFpn T pgn fpn).2 q =
      if pageKey q = pageKey pgn then
        (entrySetFpn fpn (pageEntry T q)).setWidth 32
      else pteGetEntry T q := by
  simp only [pteGetEntry_eq, pteSetFpn, pageEntry_setPte]
  split_ifs <;> rfl

/-- What is read after `pte_set_swap`. -/
theorem pteGetEntry_setSwap (T : PageDir m) (pgn : Addr) (swptyp : BitVec 32)
    (swpoff q : Addr) :
    pteGetEntry (pteSetSwap T pgn swptyp swpoff).2 q =
      if pageKey q = pageKey pgn then
        (entrySetSwap swptyp swpoff (pageEntry T q)).setWidth 32
      else pteGetEntry T q := by
  simp only [pteGetEntry_eq, pteSetSwap, pageEntry_setPte]
  split_ifs <;> rfl

/-- What is read depends on the key of the page only. -/
theorem pteGetEntry_congr (T : PageDir m) {p q : Addr} (h : pageKey p = pageKey q) :
    pteGetEntry T p = pteGetEntry T q := by
  unfold pteGetEntry
  rw [(getPdFromPagenum_eq_iff p q).mpr h]

/-! ## The pages of `vmap_pgd_memset` -/

/-- The offset of a page, whose product is an `int`, is negative from the half on. -/
theorem toNat_pageOffset {i : Nat} (hi : i < 2 ^ 20) :
    ((BitVec.ofNat 32 i * 4096#32).signExtend 64).toNat =
      if i < 2 ^ 19 then i * 4096 else 2 ^ 64 - 2 ^ 32 + i * 4096 := by
  have hprod : (BitVec.ofNat 32 i * 4096#32).toNat = i * 4096 := by
    rw [BitVec.toNat_mul, BitVec.toNat_ofNat, BitVec.toNat_ofNat]
    omega
  split_ifs with hhalf
  · rw [signExtend_of_lt (by rw [hprod]; omega), hprod]
  · have hmsb : (BitVec.ofNat 32 i * 4096#32).msb = true := by
      rw [BitVec.msb_eq_true_iff_two_mul_ge, hprod]
      omega
    rw [BitVec.toNat_signExtend, hmsb, if_pos rfl, BitVec.toNat_setWidth, hprod]
    omega

/-- The offsets repeat after `2 ^ 20` pages. -/
theorem pageAddr_mod (addr : Addr) (i : Nat) :
    pageAddr addr (i % 2 ^ 20) = pageAddr addr i := by
  have hprod : BitVec.ofNat 32 (i % 2 ^ 20) * 4096#32 = BitVec.ofNat 32 i * 4096#32 := by
    apply BitVec.eq_of_toNat_eq
    rw [BitVec.toNat_mul, BitVec.toNat_mul, BitVec.toNat_ofNat, BitVec.toNat_ofNat,
      BitVec.toNat_ofNat]
    omega
  rw [pageAddr, pageAddr, hprod]

/-- The `i`-th page from an address on. -/
def pageFrom (addr : Addr) (i : Nat) : Addr :=
  (addr >>> 12) + BitVec.ofNat 64 i

/-- The key of a page that follows the one of the address. -/
theorem toNat_pageKey_pageFrom (addr : Addr) (i : Nat) :
    (pageKey (pageFrom addr i)).toNat = (addr.toNat / 2 ^ 12 + i) % 2 ^ 45 := by
  have haddr := addr.isLt
  rw [pageKey, pageFrom, BitVec.toNat_setWidth, BitVec.toNat_add, BitVec.toNat_ushiftRight,
    BitVec.toNat_ofNat, Nat.shiftRight_eq_div_pow]
  omega

/-- Up to half of the offsets, the page is the one that is meant. -/
theorem pageKey_pageAddr_low (addr : Addr) {i : Nat} (hi : i < 2 ^ 19) :
    pageKey (pageAddr addr i >>> 12) = pageKey (pageFrom addr i) := by
  have haddr := addr.isLt
  apply BitVec.eq_of_toNat_eq
  rw [toNat_pageKey_pageFrom, pageKey, pageAddr, BitVec.toNat_setWidth,
    BitVec.toNat_ushiftRight, BitVec.toNat_add, toNat_pageOffset (by omega), if_pos hi,
    Nat.shiftRight_eq_div_pow]
  omega

/-- The page that lies `2 ^ 20` pages before the `i`-th one, modulo `2 ^ 45`. -/
def strayPage (addr : Addr) (i : Nat) : Addr :=
  (pageKey (pageFrom addr i - 0x100000#64)).setWidth 64

/-- Its number, without the subtraction. -/
theorem toNat_strayPage (addr : Addr) (i : Nat) :
    (strayPage addr i).toNat = (addr.toNat / 2 ^ 12 + i + (2 ^ 45 - 2 ^ 20)) % 2 ^ 45 := by
  have haddr := addr.isLt
  rw [strayPage, pageKey, pageFrom, BitVec.toNat_setWidth, BitVec.toNat_setWidth,
    BitVec.toNat_sub, BitVec.toNat_add, BitVec.toNat_ushiftRight, BitVec.toNat_ofNat,
    BitVec.toNat_ofNat, Nat.shiftRight_eq_div_pow]
  omega

theorem toNat_strayPage_lt (addr : Addr) (i : Nat) : (strayPage addr i).toNat < 2 ^ 45 := by
  have hkey := (pageKey (pageFrom addr i - 0x100000#64)).isLt
  rw [strayPage, BitVec.toNat_setWidth, Nat.mod_eq_of_lt (by omega)]
  exact hkey

/-- From then on it is one that lies `2 ^ 20` pages before. -/
theorem pageKey_pageAddr_high (addr : Addr) {i : Nat} (hi : 2 ^ 19 ≤ i) (hi' : i < 2 ^ 20) :
    pageKey (pageAddr addr i >>> 12) = pageKey (strayPage addr i) := by
  have haddr := addr.isLt
  have hlow : ¬ i < 2 ^ 19 := Nat.not_lt.mpr hi
  apply BitVec.eq_of_toNat_eq
  rw [pageKey, pageKey, BitVec.toNat_setWidth, BitVec.toNat_setWidth,
    toNat_strayPage, pageAddr, BitVec.toNat_ushiftRight, BitVec.toNat_add,
    toNat_pageOffset hi', if_neg hlow, Nat.shiftRight_eq_div_pow]
  omega

/-! ## Sequences of updates -/

/-- The functions that change entries. -/
inductive TableOp
  | setFpn (pgn fpn : Addr)
  | setSwap (pgn : Addr) (swptyp : BitVec 32) (swpoff : Addr)
  | memset (addr : Addr) (pgnum : BitVec 32)

/-- Carry out one call. -/
def TableOp.run (T : PageDir m) : TableOp → PageDir m
  | .setFpn pgn fpn => (pteSetFpn T pgn fpn).2
  | .setSwap pgn swptyp swpoff => (pteSetSwap T pgn swptyp swpoff).2
  | .memset addr pgnum => (vmapPgdMemset T addr pgnum.toInt).2

/-- The pages that a call names, in order, with what it is to do to their entries:
`vmap_pgd_memset` names `pgnum` pages from that of `addr` on. -/
def TableOp.updates : TableOp → List (Addr × (BitVec 64 → BitVec 64))
  | .setFpn pgn fpn => [(pgn, entrySetFpn fpn)]
  | .setSwap pgn swptyp swpoff => [(pgn, entrySetSwap swptyp swpoff)]
  | .memset addr pgnum =>
      (List.range pgnum.toInt.toNat).map fun i => (pageFrom addr i, fun _ => pattern)

/-- The entry of `p` after the updates that name `p`. -/
def entryAfter (p : Addr) (us : List (Addr × (BitVec 64 → BitVec 64)))
    (pte : BitVec 64) : BitVec 64 :=
  us.foldl (fun pte u => if u.1 = p then u.2 pte else pte) pte

/-- The table after a sequence of calls, from that of `init_mm` on. -/
def tableAfter (m : Radix.Malloc Nat 0) (ops : List TableOp) : PageDir m :=
  ops.foldl (fun T op => op.run T) Radix.Table.empty

/-- The table implements the map: what is read for a page is what the updates that name
this page, in order, make of 0. -/
def Implements (T : PageDir m) (us : List (Addr × (BitVec 64 → BitVec 64))) : Prop :=
  ∀ p : Addr, p.toNat < 2 ^ 45 → pteGetEntry T p = (entryAfter p us 0).setWidth 32

/-- The updates have left the pattern in the entry of `p`. -/
def HasPattern (us : List (Addr × (BitVec 64 → BitVec 64))) (p : Addr) : Prop :=
  (entryAfter p us 0).setWidth 32 = 0xdeadbeef

/-- The pages that a call for more than `2 ^ 19` pages misses, and those that it hits
instead, have the pattern already. -/
def TableOp.Lands (us : List (Addr × (BitVec 64 → BitVec 64))) : TableOp → Prop
  | .memset addr pgnum =>
      ∀ i, 2 ^ 19 ≤ i → i < pgnum.toInt.toNat →
        HasPattern us (pageFrom addr i) ∧ (i < 2 ^ 20 → HasPattern us (strayPage addr i))
  | _ => True

/-- The updates of two sequences, one after the other. -/
theorem entryAfter_append (p : Addr) (us vs : List (Addr × (BitVec 64 → BitVec 64)))
    (pte : BitVec 64) :
    entryAfter p (us ++ vs) pte = entryAfter p vs (entryAfter p us pte) :=
  List.foldl_append

/-- Updates to one value leave it, or nothing when none of them applies. -/
theorem foldl_ite_const {α β : Type} (P : α → Prop) [DecidablePred P] (c : β) (l : List α)
    (x : β) :
    l.foldl (fun x a => if P a then c else x) x = if ∃ a ∈ l, P a then c else x := by
  induction l generalizing x with
  | nil => simp
  | cons a l ih =>
      rw [List.foldl_cons, ih]
      by_cases ha : P a
      · simp [ha]
      · simp [ha]

/-- What `vmap_pgd_memset` is to do to an entry. -/
theorem entryAfter_memset (p addr : Addr) (pgnum : BitVec 32) (pte : BitVec 64) :
    entryAfter p (TableOp.memset addr pgnum).updates pte =
      if ∃ i ∈ List.range pgnum.toInt.toNat, pageFrom addr i = p then pattern else pte := by
  rw [entryAfter, TableOp.updates, List.foldl_map]
  exact foldl_ite_const (fun i => pageFrom addr i = p) pattern _ pte

/-- What it does to an entry. -/
theorem pageEntry_memset (T : PageDir m) (addr : Addr) (pgnum : BitVec 32) (q : Addr) :
    pageEntry ((TableOp.memset addr pgnum).run T) q =
      if ∃ i ∈ List.range pgnum.toInt.toNat, pageKey q = pageKey (pageAddr addr i >>> 12)
      then pattern else pageEntry T q := by
  rw [← foldl_ite_const (fun i => pageKey q = pageKey (pageAddr addr i >>> 12)) pattern]
  simp only [TableOp.run, vmapPgdMemset, getPdFromAddress_eq]
  generalize List.range pgnum.toInt.toNat = is
  induction is generalizing T with
  | nil => rfl
  | cons i is ih => rw [List.foldl_cons, List.foldl_cons, ih, pageEntry_setPte]

/-- The lower half of an entry after an update depends on the lower half only. -/
theorem setWidth_entrySetFpn (fpn : Addr) {v w : BitVec 64}
    (h : v.setWidth 32 = w.setWidth 32) :
    (entrySetFpn fpn v).setWidth 32 = (entrySetFpn fpn w).setWidth 32 := by
  apply BitVec.eq_of_getLsbD_eq
  intro i hi
  have hbit := congrArg (fun x => BitVec.getLsbD x i) h
  simp only [BitVec.getLsbD_setWidth, hi, decide_true, Bool.true_and] at hbit ⊢
  rw [getLsbD_entrySetFpn _ _ hi, getLsbD_entrySetFpn _ _ hi, hbit]

/-- So it does for `pte_set_swap`. -/
theorem setWidth_entrySetSwap (swptyp : BitVec 32) (swpoff : Addr) {v w : BitVec 64}
    (h : v.setWidth 32 = w.setWidth 32) :
    (entrySetSwap swptyp swpoff v).setWidth 32 =
      (entrySetSwap swptyp swpoff w).setWidth 32 := by
  apply BitVec.eq_of_getLsbD_eq
  intro i hi
  have hbit := congrArg (fun x => BitVec.getLsbD x i) h
  simp only [BitVec.getLsbD_setWidth, hi, decide_true, Bool.true_and] at hbit ⊢
  rw [getLsbD_entrySetSwap _ _ _ hi, getLsbD_entrySetSwap _ _ _ hi, hbit]

variable {us : List (Addr × (BitVec 64 → BitVec 64))} {T : PageDir m}

/-- A call for a single page keeps the map. -/
theorem Implements.single (h : Implements T us) {pgn : Addr} (hpgn : pgn.toNat < 2 ^ 45)
    {f : BitVec 64 → BitVec 64}
    (hf : ∀ v w : BitVec 64, v.setWidth 32 = w.setWidth 32 →
      (f v).setWidth 32 = (f w).setWidth 32) :
    Implements (setPte T (getPdFromPagenum pgn) f) (us ++ [(pgn, f)]) := by
  intro p hp
  have hread := h p hp
  rw [pteGetEntry_eq] at hread
  rw [pteGetEntry_eq, pageEntry_setPte, entryAfter_append]
  by_cases hkey : pageKey p = pageKey pgn
  · have hname : pgn = p := (pageKey_inj hp hpgn hkey).symm
    simp only [hkey, if_true, entryAfter, List.foldl_cons, List.foldl_nil, hname]
    exact hf _ _ hread
  · have hname : pgn ≠ p := fun heq => hkey (by rw [heq])
    simp only [hkey, if_false, entryAfter, List.foldl_cons, List.foldl_nil, hname]
    exact hread

/-- A page from the half of the offsets on is not hit at all. -/
theorem pageKey_ne_of_missed (addr : Addr) {i j : Nat} (hi : 2 ^ 19 ≤ i) (hi' : i < 2 ^ 31) :
    pageKey (pageFrom addr i) ≠ pageKey (pageAddr addr j >>> 12) := by
  intro hkey
  have hval := congrArg BitVec.toNat hkey
  have hlt : j % 2 ^ 20 < 2 ^ 20 := Nat.mod_lt _ (by omega)
  rw [← pageAddr_mod, toNat_pageKey_pageFrom] at hval
  rcases Nat.lt_or_ge (j % 2 ^ 20) (2 ^ 19) with hlow | hhigh
  · rw [pageKey_pageAddr_low addr hlow, toNat_pageKey_pageFrom] at hval
    omega
  · rw [pageKey_pageAddr_high addr hhigh hlt, pageKey, BitVec.toNat_setWidth,
      toNat_strayPage] at hval
    omega

/-- A page that is hit instead of another one is none of those that are meant. -/
theorem pageFrom_ne_strayPage (addr : Addr) {i k : Nat} (hi : i < 2 ^ 20) (hk : k < 2 ^ 31) :
    pageFrom addr k ≠ strayPage addr i := by
  intro heq
  have hval : (pageKey (pageFrom addr k)).toNat = (pageKey (strayPage addr i)).toNat := by
    rw [heq]
  rw [toNat_pageKey_pageFrom, pageKey, BitVec.toNat_setWidth, toNat_strayPage] at hval
  omega

/-- The pages whose entries a call sets to the pattern, up to half of the offsets those that
are meant. -/
theorem hit_cases {addr p : Addr} {pgnum : BitVec 32} (hp : p.toNat < 2 ^ 45)
    (hnames : ∀ u ∈ (TableOp.memset addr pgnum).updates, u.1.toNat < 2 ^ 45)
    (hhit : ∃ i ∈ List.range pgnum.toInt.toNat, pageKey p = pageKey (pageAddr addr i >>> 12)) :
    (∃ i ∈ List.range pgnum.toInt.toNat, pageFrom addr i = p) ∨
      ∃ i, 2 ^ 19 ≤ i ∧ i < 2 ^ 20 ∧ i < pgnum.toInt.toNat ∧ strayPage addr i = p := by
  obtain ⟨j, hj, hkey⟩ := hhit
  have hj := List.mem_range.mp hj
  have hlt : j % 2 ^ 20 < 2 ^ 20 := Nat.mod_lt _ (by omega)
  have hle : j % 2 ^ 20 ≤ j := Nat.mod_le _ _
  rw [← pageAddr_mod] at hkey
  rcases Nat.lt_or_ge (j % 2 ^ 20) (2 ^ 19) with hlow | hhigh
  · have hmem : j % 2 ^ 20 ∈ List.range pgnum.toInt.toNat := List.mem_range.mpr (by omega)
    have hname := hnames _ (List.mem_map_of_mem hmem)
    rw [pageKey_pageAddr_low addr hlow] at hkey
    exact .inl ⟨_, hmem, (pageKey_inj hp hname hkey).symm⟩
  · rw [pageKey_pageAddr_high addr hhigh hlt] at hkey
    exact .inr ⟨_, hhigh, hlt, by omega,
      (pageKey_inj hp (toNat_strayPage_lt addr _) hkey).symm⟩

/-- `vmap_pgd_memset` keeps the map when it lands, and then only. -/
theorem Implements.memset_iff (h : Implements T us) {addr : Addr} {pgnum : BitVec 32}
    (hnames : ∀ u ∈ (TableOp.memset addr pgnum).updates, u.1.toNat < 2 ^ 45) :
    Implements ((TableOp.memset addr pgnum).run T)
        (us ++ (TableOp.memset addr pgnum).updates) ↔
      (TableOp.memset addr pgnum).Lands us := by
  have hbound : pgnum.toInt.toNat < 2 ^ 31 := by
    have hint := BitVec.toInt_lt (x := pgnum)
    omega
  have hpattern : pattern.setWidth 32 = 0xdeadbeef := by decide
  constructor
  · intro hafter i hi hin
    have hmem : i ∈ List.range pgnum.toInt.toNat := List.mem_range.mpr hin
    constructor
    -- the page is meant and not hit: its entry is the one before the call
    · have hname := hnames _ (List.mem_map_of_mem hmem)
      have hread := hafter _ hname
      have hmiss : ¬ ∃ j ∈ List.range pgnum.toInt.toNat,
          pageKey (pageFrom addr i) = pageKey (pageAddr addr j >>> 12) := by
        rintro ⟨j, -, hkey⟩
        exact pageKey_ne_of_missed addr hi (by omega) hkey
      rw [pteGetEntry_eq, pageEntry_memset, if_neg hmiss, entryAfter_append,
        entryAfter_memset, if_pos ⟨i, hmem, rfl⟩, ← pteGetEntry_eq, h _ hname, hpattern]
        at hread
      exact hread
    -- the page is hit and not meant: the pattern is what the updates say already
    · intro hi'
      have hread := hafter _ (toNat_strayPage_lt addr i)
      have hhit : ∃ j ∈ List.range pgnum.toInt.toNat,
          pageKey (strayPage addr i) = pageKey (pageAddr addr j >>> 12) :=
        ⟨i, hmem, (pageKey_pageAddr_high addr hi hi').symm⟩
      have hunnamed : ¬ ∃ k ∈ List.range pgnum.toInt.toNat,
          pageFrom addr k = strayPage addr i := by
        rintro ⟨k, hk, heq⟩
        have hk := List.mem_range.mp hk
        exact pageFrom_ne_strayPage addr hi' (by omega) heq
      rw [pteGetEntry_eq, pageEntry_memset, if_pos hhit, entryAfter_append,
        entryAfter_memset, if_neg hunnamed, hpattern] at hread
      exact hread.symm
  · intro hlands p hp
    have hread := h p hp
    rw [pteGetEntry_eq] at hread
    rw [pteGetEntry_eq, pageEntry_memset, entryAfter_append, entryAfter_memset]
    by_cases hnamed : ∃ i ∈ List.range pgnum.toInt.toNat, pageFrom addr i = p
    · rw [if_pos hnamed]
      split_ifs with hhit
      · rfl
      · obtain ⟨i, hmem, rfl⟩ := hnamed
        have hin := List.mem_range.mp hmem
        have hlate : 2 ^ 19 ≤ i := by
          by_contra hlow
          exact hhit ⟨i, hmem, (pageKey_pageAddr_low addr (by omega)).symm⟩
        rw [hread, hpattern]
        exact (hlands i hlate hin).1
    · rw [if_neg hnamed]
      split_ifs with hhit
      · obtain hmeant | ⟨i, hi, hi', hin, rfl⟩ := hit_cases hp hnames hhit
        · exact absurd hmeant hnamed
        · rw [hpattern]
          exact ((hlands i hi hin).2 hi').symm
      · exact hread

/-- What one call does to the map. -/
theorem Implements.run_iff (h : Implements T us) {op : TableOp}
    (hnames : ∀ u ∈ op.updates, u.1.toNat < 2 ^ 45) :
    Implements (op.run T) (us ++ op.updates) ↔ op.Lands us := by
  cases op with
  | setFpn pgn fpn =>
      have hpgn : pgn.toNat < 2 ^ 45 := hnames _ (List.mem_singleton_self _)
      exact iff_of_true (h.single hpgn fun _ _ => setWidth_entrySetFpn fpn) trivial
  | setSwap pgn swptyp swpoff =>
      have hpgn : pgn.toNat < 2 ^ 45 := hnames _ (List.mem_singleton_self _)
      exact iff_of_true (h.single hpgn fun _ _ => setWidth_entrySetSwap swptyp swpoff) trivial
  | memset addr pgnum => exact h.memset_iff hnames

/-- With no update, all entries read 0. -/
theorem implements_empty : Implements (Radix.Table.empty : PageDir m) [] := by
  intro p _
  rw [pteGetEntry_eq, pageEntry_empty]
  rfl

/-- One more call. -/
theorem tableAfter_append (ops : List TableOp) (op : TableOp) :
    tableAfter m (ops ++ [op]) = op.run (tableAfter m ops) := by
  rw [tableAfter, List.foldl_append]
  rfl

/-- The page table implements a map, all the time, exactly when no call misses a page whose
entry is not the pattern yet, or hits one instead. -/
theorem page_table_map (ops : List TableOp)
    (hnames : ∀ op ∈ ops, ∀ u ∈ op.updates, u.1.toNat < 2 ^ 45) :
    (∀ pre, pre <+: ops → Implements (tableAfter m pre) (pre.flatMap TableOp.updates)) ↔
      ∀ pre op, pre ++ [op] <+: ops → op.Lands (pre.flatMap TableOp.updates) := by
  have hstep : ∀ pre op, pre ++ [op] <+: ops →
      Implements (tableAfter m pre) (pre.flatMap TableOp.updates) →
      (Implements (tableAfter m (pre ++ [op])) ((pre ++ [op]).flatMap TableOp.updates) ↔
        op.Lands (pre.flatMap TableOp.updates)) := by
    intro pre op hpre hmap
    have hop : op ∈ ops := hpre.subset (by simp)
    rw [tableAfter_append, List.flatMap_append, List.flatMap_singleton]
    exact hmap.run_iff (hnames op hop)
  constructor
  · intro hall pre op hpre
    have hbefore := hall pre ((List.prefix_append pre [op]).trans hpre)
    exact (hstep pre op hpre hbefore).mp (hall _ hpre)
  · intro hlands pre
    induction pre using List.reverseRecOn with
    | nil => exact fun _ => implements_empty
    | append_singleton pre op ih =>
        intro hpre
        have hbefore := ih ((List.prefix_append pre [op]).trans hpre)
        exact (hstep pre op hpre hbefore).mpr (hlands pre op hpre)

/-- A `malloc` that counts upwards. -/
def countingMalloc : Radix.Malloc Nat 0 where
  addr := fun k => k + 1
  ne_null := fun k => Nat.succ_ne_zero k
  injective := fun _ _ h => Nat.succ.inj h

/-- Two pages of one array and one of another, of which the first is filled with
the pattern at last. -/
theorem page_table_map_four_calls :
    let ops : List TableOp :=
      [.setFpn 6 3, .setSwap (1 <<< 44) 0 9, .setFpn 5 4, .memset (5 <<< 12) 2]
    pteGetEntry (tableAfter countingMalloc ops) 6 = 0xdeadbeef ∧
      pteGetEntry (tableAfter countingMalloc ops) (1 <<< 44) = 0xc0000120 := by
  intro ops
  have hall : (ops.flatMap TableOp.updates).all (fun u => decide (u.1.toNat < 2 ^ 45)) =
      true := by decide
  have hnames : ∀ op ∈ ops, ∀ u ∈ op.updates, u.1.toNat < 2 ^ 45 := by
    intro op hop u hu
    exact of_decide_eq_true
      (List.all_eq_true.mp hall u (List.mem_flatMap.mpr ⟨op, hop, hu⟩))
  have hlands : ∀ pre op, pre ++ [op] <+: ops → op.Lands (pre.flatMap TableOp.updates) := by
    intro pre op hpre
    have hop : op ∈ ops := hpre.subset (by simp)
    simp only [ops, List.mem_cons, List.not_mem_nil, or_false] at hop
    obtain rfl | rfl | rfl | rfl := hop
    · trivial
    · trivial
    · trivial
    · intro i hi hin
      have htwo : (2 : BitVec 32).toInt.toNat = 2 := by decide
      omega
  have hmap := (page_table_map (m := countingMalloc) ops hnames).mpr hlands ops
    List.prefix_rfl
  exact ⟨(hmap 6 (by decide)).trans (by decide), (hmap (1 <<< 44) (by decide)).trans (by decide)⟩

/-- Of `2 ^ 19 + 1` pages from the page `2 ^ 19` on, the last one is missed. -/
theorem not_page_table_map :
    ¬ ∀ ops : List TableOp, (∀ op ∈ ops, ∀ u ∈ op.updates, u.1.toNat < 2 ^ 45) →
      Implements (tableAfter countingMalloc ops) (ops.flatMap TableOp.updates) := by
  intro hclaim
  have hnum : (524289 : BitVec 32).toInt.toNat = 524289 := by decide
  have hnames : ∀ u ∈ (TableOp.memset 0x80000000 524289).updates, u.1.toNat < 2 ^ 45 := by
    intro u hu
    obtain ⟨i, hi, rfl⟩ := List.mem_map.mp hu
    rw [hnum, List.mem_range] at hi
    have hpage : ((0x80000000 : Addr) >>> 12).toNat = 2 ^ 19 := by decide
    rw [pageFrom, BitVec.toNat_add, BitVec.toNat_ofNat, hpage]
    omega
  have hafter := hclaim ([] ++ [.memset 0x80000000 524289])
    (List.forall_mem_singleton.mpr hnames)
  rw [tableAfter_append, List.flatMap_append, List.flatMap_singleton] at hafter
  have hlands := (implements_empty.run_iff hnames).mp hafter
  have hmissed : (0 : BitVec 64).setWidth 32 = 0xdeadbeef :=
    (hlands 524288 (by omega) (by omega)).1
  exact absurd hmissed (by decide)

/-! ## The last update -/

/-- An update of the entry of a page. -/
inductive EntryUpdate
  | setFpn (fpn : Addr)
  | setSwap (swptyp : BitVec 32) (swpoff : Addr)

/-- The call that makes the update. -/
def EntryUpdate.call (pgn : Addr) : EntryUpdate → TableOp
  | .setFpn fpn => .setFpn pgn fpn
  | .setSwap swptyp swpoff => .setSwap pgn swptyp swpoff

/-- The arguments fit the fields of an entry. -/
def EntryUpdate.Fits : EntryUpdate → Prop
  | .setFpn fpn => FpnFits fpn
  | .setSwap swptyp swpoff => SwptypFits swptyp ∧ SwpoffFits swpoff

/-- The entry says what the update has said. -/
def EntryUpdate.Decodes (pte : BitVec 32) : EntryUpdate → Prop
  | .setFpn fpn => pageSwapped pte = false ∧ pagingFpn pte = fpn
  | .setSwap swptyp swpoff =>
      pageSwapped pte = true ∧ pagingSwptyp pte = swptyp ∧ pagingSwp pte = swpoff

/-- An entry can hold any 64-bit value. -/
theorem pageEntry_surjective (pgn : Addr) :
    Function.Surjective fun T : PageDir m => pageEntry T pgn := by
  intro pte
  refine ⟨setPte Radix.Table.empty (getPdFromPagenum pgn) fun _ => pte, ?_⟩
  simp only [pageEntry_setPte, if_true]

/-- One update decides what the entry says, whatever it has held. -/
theorem EntryUpdate.decodes_run {u : EntryUpdate} (hfits : u.Fits) (T : PageDir m)
    (pgn : Addr) :
    pagePresent (pteGetEntry ((u.call pgn).run T) pgn) = true ∧
      u.Decodes (pteGetEntry ((u.call pgn).run T) pgn) := by
  cases u with
  | setFpn fpn =>
      rw [EntryUpdate.call, TableOp.run, pteGetEntry_setFpn, if_pos rfl]
      exact ⟨pagePresent_setFpn .., pageSwapped_setFpn .., pagingFpn_setFpn hfits _⟩
  | setSwap swptyp swpoff =>
      rw [EntryUpdate.call, TableOp.run, pteGetEntry_setSwap, if_pos rfl]
      refine ⟨pagePresent_setSwap .., pageSwapped_setSwap .., pagingSwptyp_setSwap hfits.1 .., ?_⟩
      rw [pagingSwp_setSwap, swapSlot_of_fits hfits.2]

/-- After any non-empty sequence of updates of a page, on a table whose entry has held any
value, the entry that is read is present and decodes to the last update.  The arguments of
the other updates need not fit. -/
theorem pteGetEntry_last_update (T : PageDir m) (pgn : Addr) (us : List EntryUpdate)
    {u : EntryUpdate} (hfits : u.Fits) :
    let T' := (us ++ [u]).foldl (fun T v => (v.call pgn).run T) T
    pagePresent (pteGetEntry T' pgn) = true ∧ u.Decodes (pteGetEntry T' pgn) := by
  rw [List.foldl_append]
  exact EntryUpdate.decodes_run hfits _ pgn

/-- A frame whose number has all its bits set is followed by a swap frame, in a table with
no level allocated. -/
theorem pteGetEntry_last_update_two_calls :
    let T' := [EntryUpdate.setFpn 8191, .setSwap 3 5].foldl (fun T v => (v.call 6).run T)
      (Radix.Table.empty : PageDir countingMalloc)
    pageSwapped (pteGetEntry T' 6) = true ∧ pagingSwptyp (pteGetEntry T' 6) = 3 ∧
      pagingSwp (pteGetEntry T' 6) = 5 := by
  have hfits : (EntryUpdate.setSwap 3 5).Fits :=
    ⟨(by decide : (3 : BitVec 32).toNat < 2 ^ 5), (by decide : (5 : Addr).toNat < 2 ^ 21)⟩
  exact (pteGetEntry_last_update Radix.Table.empty 6 [.setFpn 8191] hfits).2

end Memory
end Hdh
