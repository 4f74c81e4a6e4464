import Hdh.Memory.Pte
import Mathlib.Data.List.Basic
import Mathlib.Logic.Function.Basic

/-!
# Physical memory devices

`struct memphy_struct`: the bytes of RAM or of a swap device, and the list of its
free frames of `PAGING_PAGESZ` bytes.  An access past `maxsz` is undefined, and
the answer of the model is then `none`.

Main results:

- Theorem `swapCpPage_frame`: a page copy answers 0, leaves its source alone and
  changes the bytes of its destination only.
- Theorem `swapCpPage_eq`: a page copy inside of the devices copies the bytes of a frame.
- Theorem `swapCpPage_isSome`: it is defined exactly when all its accesses are inside.
-/

namespace Hdh
namespace Memory

/-- `BYTE`. -/
abbrev Byte := BitVec 8

/-- `PAGING_PAGESZ`. -/
def pageSz : Nat := 256

/-- `struct memphy_struct`. -/
structure Memphy where
  storage : Nat → Byte
  maxsz : Nat
  rdmflg : Bool
  cursor : Nat
  freeFpList : List Addr

namespace Memphy

/-- `MEMPHY_mv_csr`: step to the address, at most `maxsz` times. -/
def mvCsr (mp : Memphy) (offset : Addr) : Memphy :=
  { mp with
    cursor := (List.range (min offset.toNat mp.maxsz)).foldl
      (fun cursor _ => (cursor + 1) % mp.maxsz) 0 }

/-- `mp->storage[addr]`. -/
def load (mp : Memphy) (addr : Addr) : Option Byte :=
  if addr.toNat < mp.maxsz then some (mp.storage addr.toNat) else none

/-- `mp->storage[addr] = value`. -/
def store (mp : Memphy) (addr : Addr) (value : Byte) : Option Memphy :=
  if addr.toNat < mp.maxsz then
    some { mp with storage := Function.update mp.storage addr.toNat value }
  else none

/-- `MEMPHY_seq_read`: the return code, the byte if one is assigned to `*value`,
and the device. -/
def seqRead (mp : Memphy) (addr : Addr) : Option (Int × Option Byte × Memphy) :=
  if mp.rdmflg = false then some (-1, none, mp)
  else
    let mp := mp.mvCsr addr
    (mp.load addr).map fun value => (0, some value, mp)

/-- `MEMPHY_read`. -/
def read (mp : Memphy) (addr : Addr) : Option (Int × Option Byte × Memphy) :=
  if mp.rdmflg then (mp.load addr).map fun value => (0, some value, mp)
  else mp.seqRead addr

/-- `MEMPHY_seq_write`. -/
def seqWrite (mp : Memphy) (addr : Addr) (value : Byte) : Option (Int × Memphy) :=
  if mp.rdmflg = false then some (-1, mp)
  else ((mp.mvCsr addr).store addr value).map fun mp => (0, mp)

/-- `MEMPHY_write`. -/
def write (mp : Memphy) (addr : Addr) (data : Byte) : Option (Int × Memphy) :=
  if mp.rdmflg then (mp.store addr data).map fun mp => (0, mp)
  else mp.seqWrite addr data

/-- The free list that `MEMPHY_format` leaves.  It does not assign the link of the
only node of a list of one frame, nor the head when there is no frame; `stale` is
what is found there. -/
def format (maxsz : Nat) (stale : List Addr) : List Addr :=
  let numfp := maxsz / pageSz
  if numfp = 0 then stale
  else if numfp = 1 then 0 :: stale
  else (List.range numfp).map fun iter => BitVec.ofNat 64 iter

/-- `MEMPHY_get_freefp`; the answer -1 is `none`. -/
def getFreefp (mp : Memphy) : Option (Addr × Memphy) :=
  match mp.freeFpList with
  | [] => none
  | fpn :: rest => some (fpn, { mp with freeFpList := rest })

/-- `MEMPHY_put_freefp`. -/
def putFreefp (mp : Memphy) (fpn : Addr) : Memphy :=
  { mp with freeFpList := fpn :: mp.freeFpList }

/-- `init_memphy`. -/
def initMemphy (maxSize : Nat) (randomflg : Bool) (stale : List Addr) : Memphy where
  storage := fun _ => 0
  maxsz := maxSize
  rdmflg := randomflg
  cursor := 0
  freeFpList := format maxSize stale

end Memphy

/-- One turn of the loop of `__swap_cp_page`.  A byte that `MEMPHY_read` has not
assigned is indeterminate. -/
def swapCpCell (srcfpn dstfpn : Addr) (cellidx : Nat) (mps : Memphy × Memphy) :
    Option (Memphy × Memphy) :=
  let addrsrc := srcfpn * 256 + BitVec.ofNat 64 cellidx
  let addrdst := dstfpn * 256 + BitVec.ofNat 64 cellidx
  match mps.1.read addrsrc with
  | some (_, some data, mpsrc) =>
      (mps.2.write addrdst data).map fun r => (mpsrc, r.2)
  | _ => none

/-- `__swap_cp_page`; it always answers 0. -/
def swapCpPage (mpsrc : Memphy) (srcfpn : Addr) (mpdst : Memphy) (dstfpn : Addr) :
    Option (Int × Memphy × Memphy) :=
  ((List.range pageSz).foldlM (fun mps cellidx => swapCpCell srcfpn dstfpn cellidx mps)
    (mpsrc, mpdst)).map fun mps => (0, mps.1, mps.2)

/-! ## Frames -/

namespace Memphy

/-- `MEMPHY_get_freefp` fails on an empty list only. -/
theorem getFreefp_eq_none_iff (mp : Memphy) :
    mp.getFreefp = none ↔ mp.freeFpList = [] := by
  unfold getFreefp
  cases mp.freeFpList <;> simp

/-- It takes the first frame off the list, and changes nothing else. -/
theorem getFreefp_eq_some {mp mp' : Memphy} {fpn : Addr}
    (h : mp.getFreefp = some (fpn, mp')) :
    mp.freeFpList = fpn :: mp'.freeFpList ∧
      mp' = { mp with freeFpList := mp'.freeFpList } := by
  unfold getFreefp at h
  split at h
  · cases h
  · rename_i fpn' rest hlist
    cases h
    exact ⟨hlist, rfl⟩

/-- The devices of at least two frames have exactly their frames on the free list;
a smaller one has them when the unassigned links are NULL. -/
theorem format_exact {maxsz : Nat} {stale : List Addr}
    (h : 2 * pageSz ≤ maxsz ∨ stale = []) :
    format maxsz stale =
      (List.range (maxsz / pageSz)).map fun iter => BitVec.ofNat 64 iter := by
  simp only [format]
  rcases h with hsize | rfl
  · have hmany : 2 ≤ maxsz / pageSz := by
      rw [Nat.le_div_iff_mul_le (by decide)]
      exact hsize
    rw [if_neg (by omega), if_neg (by omega)]
  · split_ifs with hzero hone
    · rw [hzero]
      rfl
    · rw [hone]
      rfl
    · rfl

/-- A read does not change the bytes or the frames of its device. -/
theorem read_frame {mp mp' : Memphy} {addr : Addr} {ret : Int} {value : Byte}
    (h : mp.read addr = some (ret, some value, mp')) :
    mp' = mp ∧ mp.rdmflg = true ∧ ret = 0 ∧ addr.toNat < mp.maxsz ∧
      value = mp.storage addr.toNat := by
  unfold read at h
  cases hrdm : mp.rdmflg with
  | true =>
      rw [if_pos hrdm] at h
      obtain ⟨v, hv, heq⟩ := Option.map_eq_some_iff.mp h
      cases heq
      unfold load at hv
      split_ifs at hv with hlt
      cases hv
      exact ⟨rfl, rfl, rfl, hlt, rfl⟩
  | false =>
      rw [if_neg (by simp [hrdm]), seqRead, if_pos hrdm] at h
      simp at h

/-- A write changes one byte at most. -/
theorem write_frame {mp mp' : Memphy} {addr : Addr} {ret : Int} {data : Byte}
    (h : mp.write addr data = some (ret, mp')) :
    mp'.freeFpList = mp.freeFpList ∧ mp'.maxsz = mp.maxsz ∧
      mp'.rdmflg = mp.rdmflg ∧
      (mp.rdmflg = true → ret = 0 ∧ addr.toNat < mp.maxsz ∧
        mp'.storage = Function.update mp.storage addr.toNat data) := by
  unfold write at h
  cases hrdm : mp.rdmflg with
  | true =>
      rw [if_pos hrdm] at h
      obtain ⟨mp₁, hstore, heq⟩ := Option.map_eq_some_iff.mp h
      cases heq
      unfold store at hstore
      split_ifs at hstore with hlt
      cases hstore
      exact ⟨rfl, rfl, hrdm, fun _ => ⟨rfl, hlt, rfl⟩⟩
  | false =>
      rw [if_neg (by simp [hrdm]), seqWrite, if_pos hrdm] at h
      cases h
      exact ⟨rfl, rfl, hrdm, by simp⟩

end Memphy

/-- What every turn of a loop keeps, the loop keeps. -/
theorem foldlM_keeps {α β : Type} {P : β → Prop} {f : β → α → Option β}
    (hstep : ∀ b a b', P b → f b a = some b' → P b') {l : List α} {b b' : β}
    (hinit : P b) (h : l.foldlM f b = some b') : P b' := by
  induction l generalizing b with
  | nil =>
      cases h
      exact hinit
  | cons a l ih =>
      rw [List.foldlM_cons] at h
      obtain ⟨c, hc, hrest⟩ := Option.bind_eq_some_iff.mp h
      exact ih (hstep b a c hinit hc) hrest

/-- A page copy leaves its source alone and changes the bytes of its destination
only. -/
theorem swapCpPage_frame {mpsrc mpdst src' dst' : Memphy} {srcfpn dstfpn : Addr}
    {ret : Int} (h : swapCpPage mpsrc srcfpn mpdst dstfpn = some (ret, src', dst')) :
    ret = 0 ∧ src' = mpsrc ∧ dst'.freeFpList = mpdst.freeFpList ∧
      dst'.maxsz = mpdst.maxsz ∧ dst'.rdmflg = mpdst.rdmflg := by
  obtain ⟨mps, hloop, heq⟩ := Option.map_eq_some_iff.mp h
  cases heq
  refine ⟨rfl, foldlM_keeps (P := fun mps : Memphy × Memphy => mps.1 = mpsrc ∧
    mps.2.freeFpList = mpdst.freeFpList ∧ mps.2.maxsz = mpdst.maxsz ∧
    mps.2.rdmflg = mpdst.rdmflg) ?_ ⟨rfl, rfl, rfl, rfl⟩ hloop⟩
  rintro ⟨src, dst⟩ cellidx mps' ⟨hsrc, hfree, hmax, hrdm⟩ hcell
  simp only at hsrc hfree hmax hrdm
  simp only [swapCpCell] at hcell
  split at hcell
  · rename_i ret data mp hread
    obtain ⟨r, hwrite, rfl⟩ := Option.map_eq_some_iff.mp hcell
    obtain ⟨hsame, -⟩ := Memphy.read_frame hread
    obtain ⟨hfree', hmax', hrdm', -⟩ := Memphy.write_frame hwrite
    exact ⟨hsame.trans hsrc, hfree'.trans hfree, hmax'.trans hmax, hrdm'.trans hrdm⟩
  · cases hcell

/-! ## What a page copy does -/

/-- The address of a byte of a frame, as `__swap_cp_page` computes it. -/
def cellAddr (fpn : Addr) (cellidx : Nat) : Addr :=
  fpn * 256 + BitVec.ofNat 64 cellidx

/-- A read of a random access device. -/
theorem Memphy.read_random {mp : Memphy} (hrdm : mp.rdmflg = true) (addr : Addr) :
    mp.read addr =
      if addr.toNat < mp.maxsz then some (0, some (mp.storage addr.toNat), mp)
      else none := by
  rw [read, if_pos hrdm, load]
  split_ifs <;> rfl

/-- A write to a random access device. -/
theorem Memphy.write_random {mp : Memphy} (hrdm : mp.rdmflg = true) (addr : Addr)
    (data : Byte) :
    mp.write addr data =
      if addr.toNat < mp.maxsz then
        some (0, { mp with storage := Function.update mp.storage addr.toNat data })
      else none := by
  rw [write, if_pos hrdm, store]
  split_ifs <;> rfl

/-- One turn of the loop, on devices with random access. -/
theorem swapCpCell_eq {mpsrc mpdst : Memphy} (hsrc : mpsrc.rdmflg = true)
    (hdst : mpdst.rdmflg = true) (srcfpn dstfpn : Addr) (cellidx : Nat) :
    swapCpCell srcfpn dstfpn cellidx (mpsrc, mpdst) =
      if (cellAddr srcfpn cellidx).toNat < mpsrc.maxsz ∧
          (cellAddr dstfpn cellidx).toNat < mpdst.maxsz then
        some (mpsrc, { mpdst with
          storage := Function.update mpdst.storage (cellAddr dstfpn cellidx).toNat
            (mpsrc.storage (cellAddr srcfpn cellidx).toNat) })
      else none := by
  have hturn : swapCpCell srcfpn dstfpn cellidx (mpsrc, mpdst) =
      match mpsrc.read (cellAddr srcfpn cellidx) with
      | some (_, some data, mpsrc) =>
          (mpdst.write (cellAddr dstfpn cellidx) data).map fun r => (mpsrc, r.2)
      | _ => none := rfl
  rw [hturn, Memphy.read_random hsrc]
  by_cases hs : (cellAddr srcfpn cellidx).toNat < mpsrc.maxsz
  · rw [if_pos hs]
    simp only [Memphy.write_random hdst, hs, true_and]
    split_ifs <;> rfl
  · rw [if_neg hs, if_neg fun h => hs h.1]

/-- The loop is defined if and only if all its accesses are inside of the devices. -/
theorem foldlM_swapCpCell_isSome {mpsrc mpdst : Memphy} (hsrc : mpsrc.rdmflg = true)
    (hdst : mpdst.rdmflg = true) (srcfpn dstfpn : Addr) (cells : List Nat) :
    (cells.foldlM (fun mps cellidx => swapCpCell srcfpn dstfpn cellidx mps)
      (mpsrc, mpdst)).isSome ↔
      ∀ cellidx ∈ cells, (cellAddr srcfpn cellidx).toNat < mpsrc.maxsz ∧
        (cellAddr dstfpn cellidx).toNat < mpdst.maxsz := by
  induction cells generalizing mpdst with
  | nil => simp
  | cons cellidx cells ih =>
      rw [List.foldlM_cons, swapCpCell_eq hsrc hdst, List.forall_mem_cons]
      split_ifs with hin
      · simp only [Option.bind_eq_bind, Option.bind_some]
        refine Iff.trans (ih ?_) (and_iff_right hin).symm
        exact hdst
      · exact iff_of_false (by simp) fun h => hin h.1

/-- A copy is possible when all cells are inside of both devices. -/
theorem swapCpPage_isSome {mpsrc mpdst : Memphy} (hsrc : mpsrc.rdmflg = true)
    (hdst : mpdst.rdmflg = true) (srcfpn dstfpn : Addr) :
    (swapCpPage mpsrc srcfpn mpdst dstfpn).isSome ↔
      ∀ cellidx < pageSz, (cellAddr srcfpn cellidx).toNat < mpsrc.maxsz ∧
        (cellAddr dstfpn cellidx).toNat < mpdst.maxsz := by
  rw [swapCpPage, Option.isSome_map, foldlM_swapCpCell_isSome hsrc hdst]
  simp only [List.mem_range]

/-- The bytes of a device after `n` bytes have been copied to one of its frames. -/
def copied (src dst : Nat → Byte) (srcfpn dstfpn : Addr) (n : Nat) (a : Nat) : Byte :=
  if dstfpn.toNat * 256 ≤ a ∧ a < dstfpn.toNat * 256 + n then
    src (srcfpn.toNat * 256 + (a - dstfpn.toNat * 256))
  else dst a

/-- At first nothing has been copied. -/
theorem copied_zero (src dst : Nat → Byte) (srcfpn dstfpn : Addr) :
    copied src dst srcfpn dstfpn 0 = dst := by
  funext a
  rw [copied, if_neg (by omega)]

/-- One more cell has been copied. -/
theorem copied_succ (src dst : Nat → Byte) (srcfpn dstfpn : Addr) (n : Nat) :
    copied src dst srcfpn dstfpn (n + 1) =
      Function.update (copied src dst srcfpn dstfpn n) (dstfpn.toNat * 256 + n)
        (src (srcfpn.toNat * 256 + n)) := by
  funext a
  by_cases ha : a = dstfpn.toNat * 256 + n
  · rw [ha, Function.update_self, copied, if_pos (by omega), Nat.add_sub_cancel_left]
  · rw [Function.update_of_ne ha, copied, copied]
    by_cases hin : dstfpn.toNat * 256 ≤ a ∧ a < dstfpn.toNat * 256 + n
    · rw [if_pos (by omega), if_pos hin]
    · rw [if_neg (by omega), if_neg hin]

/-- The address of a cell does not overflow. -/
theorem cellAddr_toNat {fpn : Addr} {cellidx : Nat} (hfpn : fpn.toNat < 2 ^ 55)
    (hcell : cellidx < pageSz) : (cellAddr fpn cellidx).toNat = fpn.toNat * 256 + cellidx := by
  unfold pageSz at hcell
  have h256 : (256 : Addr).toNat = 256 := rfl
  rw [cellAddr, BitVec.toNat_add, BitVec.toNat_mul, BitVec.toNat_ofNat, h256]
  omega

/-- A page copy between frames of two devices with random access copies the bytes of the
frame. -/
theorem swapCpPage_eq {mpsrc mpdst : Memphy} {srcfpn dstfpn : Addr}
    (hsrc : mpsrc.rdmflg = true) (hdst : mpdst.rdmflg = true)
    (hsrcfpn : srcfpn.toNat < 2 ^ 55) (hdstfpn : dstfpn.toNat < 2 ^ 55)
    (hsrcmax : srcfpn.toNat * 256 + 255 < mpsrc.maxsz)
    (hdstmax : dstfpn.toNat * 256 + 255 < mpdst.maxsz) :
    swapCpPage mpsrc srcfpn mpdst dstfpn =
      some (0, mpsrc, { mpdst with
        storage := copied mpsrc.storage mpdst.storage srcfpn dstfpn pageSz }) := by
  have hloop : ∀ n ≤ pageSz,
      (List.range n).foldlM (fun mps cellidx => swapCpCell srcfpn dstfpn cellidx mps)
        (mpsrc, mpdst) = some (mpsrc, { mpdst with
          storage := copied mpsrc.storage mpdst.storage srcfpn dstfpn n }) := by
    intro n hn
    induction n with
    | zero =>
        rw [copied_zero]
        rfl
    | succ n ih =>
        have hlt : n < pageSz := by omega
        have hsrcaddr := cellAddr_toNat hsrcfpn hlt
        have hdstaddr := cellAddr_toNat hdstfpn hlt
        have hin : (cellAddr srcfpn n).toNat < mpsrc.maxsz ∧
            (cellAddr dstfpn n).toNat < mpdst.maxsz := by
          rw [hsrcaddr, hdstaddr]
          unfold pageSz at hlt
          omega
        rw [List.range_succ, List.foldlM_append, ih (Nat.le_of_lt hlt)]
        simp only [Option.bind_eq_bind, Option.bind_some, List.foldlM_cons, List.foldlM_nil]
        rw [swapCpCell_eq hsrc (by exact hdst), if_pos hin, hsrcaddr, hdstaddr, copied_succ]
        rfl
  rw [swapCpPage, hloop pageSz le_rfl]
  rfl

end Memory
end Hdh
