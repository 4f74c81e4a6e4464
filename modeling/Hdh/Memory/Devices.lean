import Hdh.Library.Runs
import Hdh.Memory.Memphy
import Mathlib.Data.List.Perm.Basic

/-!
# Devices of any size and mode

`os.c` initialises devices with random access only, and takes their sizes from the
configuration.  The functions of `mm-memphy.c` are written for sequential devices and for
devices without frames, too.

Main results:

- Theorem `sequential_like_random_iff`: when a sequential device and a random one answer
  the same sequence of accesses in the same way.
- Theorem `initMemphy64_exact_iff`: the sizes for which the free list is exactly the frames
  of the device.
-/

namespace Hdh
namespace Memory

/-! ## Sequential devices -/

/-- A call of `MEMPHY_read` or `MEMPHY_write`. -/
inductive Access
  | read (addr : Addr)
  | write (addr : Addr) (data : Byte)
deriving DecidableEq

def Access.addr : Access → Addr
  | .read addr => addr
  | .write addr _ => addr

/-- What a call gives back, and the cursor that it leaves. -/
structure Outcome where
  ret : Int
  value : Option Byte
  cursor : Nat
deriving DecidableEq

/-- Carry out one call. -/
def Access.run (mp : Memphy) : Access → Option (Outcome × Memphy)
  | .read addr => (mp.read addr).map fun r => (⟨r.1, r.2.1, r.2.2.cursor⟩, r.2.2)
  | .write addr data => (mp.write addr data).map fun r => (⟨r.1, none, r.2.cursor⟩, r.2)

/-- Carry out a sequence of calls. -/
def accesses (mp : Memphy) : List Access → Option (List Outcome × Memphy)
  | [] => some ([], mp)
  | access :: rest =>
      match access.run mp with
      | none => none
      | some (outcome, mp) =>
          (accesses mp rest).map fun r => (outcome :: r.1, r.2)

/-- A device as `init_memphy` leaves it, with other bytes. -/
def deviceOf (maxSize : Nat) (randomflg : Bool) (stale : List Addr)
    (contents : Nat → Byte) : Memphy :=
  { Memphy.initMemphy maxSize randomflg stale with storage := contents }

/-- The calls have the same return codes and bytes read on a sequential device as on a
random one, leave the same bytes, and each leaves the cursor at its address. -/
def LikeRandom (maxSize : Nat) (stale : List Addr) (contents : Nat → Byte)
    (calls : List Access) : Prop :=
  ∃ seq seqDev rnd rndDev,
    accesses (deviceOf maxSize false stale contents) calls = some (seq, seqDev) ∧
    accesses (deviceOf maxSize true stale contents) calls = some (rnd, rndDev) ∧
    seq.map (fun o => (o.ret, o.value)) = rnd.map (fun o => (o.ret, o.value)) ∧
    seqDev.storage = rndDev.storage ∧
    seq.map (fun o => o.cursor) = calls.map fun c => c.addr.toNat

/-- A sequential device turns every call away: `MEMPHY_seq_read` and `MEMPHY_seq_write`
take the flag of random access for the one of sequential access. -/
theorem Access.run_sequential {mp : Memphy} (hseq : mp.rdmflg = false) (access : Access) :
    access.run mp = some (⟨-1, none, mp.cursor⟩, mp) := by
  cases access with
  | read addr => simp [Access.run, Memphy.read, Memphy.seqRead, hseq]
  | write addr data => simp [Access.run, Memphy.write, Memphy.seqWrite, hseq]

/-- A random device answers 0 and leaves its cursor where it is. -/
theorem Access.run_random {mp : Memphy} (hrdm : mp.rdmflg = true) {access : Access}
    (haddr : access.addr.toNat < mp.maxsz) :
    ∃ value mp', access.run mp = some (⟨0, value, mp.cursor⟩, mp') := by
  cases access with
  | read addr =>
      have hin : addr.toNat < mp.maxsz := haddr
      rw [Access.run, Memphy.read_random hrdm, if_pos hin]
      exact ⟨_, _, rfl⟩
  | write addr data =>
      have hin : addr.toNat < mp.maxsz := haddr
      rw [Access.run, Memphy.write_random hrdm, if_pos hin]
      exact ⟨_, _, rfl⟩

/-- A sequence of calls leaves a sequential device as it is. -/
theorem accesses_sequential {mp : Memphy} (hseq : mp.rdmflg = false)
    (calls : List Access) :
    accesses mp calls = some (calls.map fun _ => ⟨-1, none, mp.cursor⟩, mp) := by
  induction calls with
  | nil => rfl
  | cons access rest ih =>
      rw [accesses, access.run_sequential hseq]
      simp only [ih, Option.map_some, List.map_cons]

/-- The first call on a random device answers 0. -/
theorem accesses_random_head {mp mp' : Memphy} (hrdm : mp.rdmflg = true)
    {access : Access} {rest : List Access} {outcomes : List Outcome}
    (haddr : access.addr.toNat < mp.maxsz)
    (h : accesses mp (access :: rest) = some (outcomes, mp')) :
    ∃ value tail, outcomes = ⟨0, value, mp.cursor⟩ :: tail := by
  obtain ⟨value, mp₁, hcall⟩ := Access.run_random hrdm haddr
  rw [accesses, hcall] at h
  obtain ⟨r, -, hr⟩ := Option.map_eq_some_iff.mp h
  cases hr
  exact ⟨value, r.1, rfl⟩

/-- A sequential device and a random one answer calls inside of the device in the same way
only when there is no call. -/
theorem sequential_like_random_iff {maxSize : Nat} (stale : List Addr)
    (contents : Nat → Byte) {calls : List Access}
    (hin : ∀ c ∈ calls, c.addr.toNat < maxSize) :
    LikeRandom maxSize stale contents calls ↔ calls = [] := by
  constructor
  · rintro ⟨seq, seqDev, rnd, rndDev, hseq, hrnd, hanswers, -⟩
    cases calls with
    | nil => rfl
    | cons access rest =>
        rw [accesses_sequential rfl] at hseq
        cases hseq
        obtain ⟨value, tail, rfl⟩ := accesses_random_head rfl
          (hin access (List.mem_cons_self ..)) hrnd
        simp at hanswers
  · rintro rfl
    exact ⟨[], _, [], _, rfl, rfl, rfl, rfl, rfl⟩

/-- On a device of one frame. -/
theorem sequential_like_random_iff_frame :
    LikeRandom 256 [] (fun _ => 0) [.write 3 7, .read 3] ↔
      [Access.write 3 7, .read 3] = [] :=
  sequential_like_random_iff [] (fun _ => 0) (by decide)

/-- One read of a sequential device answers -1, and of a random one 0. -/
theorem not_sequential_like_random :
    ¬ ∀ (maxSize : Nat) (stale : List Addr) (contents : Nat → Byte) (calls : List Access),
      (∀ c ∈ calls, c.addr.toNat < maxSize) → LikeRandom maxSize stale contents calls := by
  intro hclaim
  obtain ⟨seq, seqDev, rnd, rndDev, hseq, hrnd, hanswers, -⟩ :=
    hclaim 256 [] (fun _ => 0) [.read 0] (by decide)
  cases hseq
  cases hrnd
  revert hanswers
  decide

/-- The loop of `MEMPHY_mv_csr` reaches every address of its device. -/
theorem Memphy.mvCsr_cursor {mp : Memphy} {addr : Addr} (haddr : addr.toNat < mp.maxsz) :
    (mp.mvCsr addr).cursor = addr.toNat := by
  have hloop : ∀ n < mp.maxsz,
      (List.range n).foldl (fun cursor _ => (cursor + 1) % mp.maxsz) 0 = n := by
    intro n hn
    induction n with
    | zero => rfl
    | succ n ih =>
        rw [List.range_succ, List.foldl_append, ih (by omega)]
        exact Nat.mod_eq_of_lt hn
  rw [mvCsr, Nat.min_eq_left (Nat.le_of_lt haddr)]
  exact hloop addr.toNat haddr

/-! ## Devices of any size -/

/-- `init_memphy`, with the size as it is passed.  `maxsz` is an `int`; of a negative one
`MEMPHY_format` makes as little as of 0. -/
def Memphy.initMemphy64 (maxSize : Addr) (randomflg : Bool) (stale : List Addr) : Memphy :=
  Memphy.initMemphy (maxSize.setWidth 32).toInt.toNat randomflg stale

/-- The frames of a device. -/
def framesOf (maxSize : Addr) : List Addr :=
  (List.range (maxSize.toNat / pageSz)).map fun iter => BitVec.ofNat 64 iter

/-- A frame is taken off the free list, or put back. -/
inductive FrameCall
  | get (fpn : Addr)
  | put (fpn : Addr)

/-- A successful call on a device and a list of frames that are out: only a frame that is
out is put back. -/
def FrameStep (s : Memphy × List Addr) : FrameCall → Memphy × List Addr → Prop
  | .get fpn, t => s.1.getFreefp = some (fpn, t.1) ∧ t.2 = fpn :: s.2
  | .put fpn, t => fpn ∈ s.2 ∧ t = (s.1.putFreefp fpn, s.2.erase fpn)

/-- The free list is exactly the frames of the device, whatever is found in the links that
are not assigned; and in every run, a frame is refused exactly when all of them are out. -/
def FramesExact (maxSize : Addr) : Prop :=
  ∀ (randomflg : Bool) (stale : List Addr),
    (Memphy.initMemphy64 maxSize randomflg stale).freeFpList = framesOf maxSize ∧
    ∀ calls mp out,
      Lts.Run FrameStep (Memphy.initMemphy64 maxSize randomflg stale, []) calls (mp, out) →
      (mp.getFreefp = none ↔ out.Perm (framesOf maxSize))

/-- A step moves a frame between the free list and the frames that are out. -/
theorem frameStep_perm {s t : Memphy × List Addr} {call : FrameCall}
    (h : FrameStep s call t) : (t.2 ++ t.1.freeFpList).Perm (s.2 ++ s.1.freeFpList) := by
  cases call with
  | get fpn =>
      obtain ⟨hget, hout⟩ := h
      rw [hout, (Memphy.getFreefp_eq_some hget).1, List.cons_append]
      exact List.perm_middle.symm
  | put fpn =>
      obtain ⟨hmem, rfl⟩ := h
      refine List.perm_middle.trans ?_
      rw [← List.cons_append]
      exact (List.perm_cons_erase hmem).symm.append_right _

/-- When the free list begins as all the frames, a frame is refused exactly when all of
them are out. -/
theorem getFreefp_eq_none_iff_out {mp mp' : Memphy} {out frames : List Addr}
    {calls : List FrameCall} (hinit : mp.freeFpList = frames)
    (hrun : Lts.Run FrameStep (mp, []) calls (mp', out)) :
    mp'.getFreefp = none ↔ out.Perm frames := by
  have hperm : (out ++ mp'.freeFpList).Perm frames :=
    hrun.invariant (I := fun s => (s.2 ++ s.1.freeFpList).Perm frames)
      (by rw [hinit]; exact List.Perm.refl _)
      fun t e u ht hstep => (frameStep_perm hstep).trans ht
  rw [Memphy.getFreefp_eq_none_iff]
  constructor
  · intro hnil
    rwa [hnil, List.append_nil] at hperm
  · intro hout
    have hlen := hperm.length_eq
    rw [List.length_append, hout.length_eq] at hlen
    exact List.length_eq_zero_iff.mp (by omega)

/-- Without stale links, the free list has the frames of the size as an `int`. -/
theorem length_initMemphy64 (maxSize : Addr) (randomflg : Bool) :
    (Memphy.initMemphy64 maxSize randomflg []).freeFpList.length =
      (maxSize.setWidth 32).toInt.toNat / pageSz := by
  rw [Memphy.initMemphy64, Memphy.initMemphy, Memphy.format_exact (Or.inr rfl),
    List.length_map, List.length_range]

/-- A link that is not assigned and not NULL makes the list of a small device too long. -/
theorem length_format_stale {maxsz : Nat} (hsmall : maxsz < 512) :
    (Memphy.format maxsz [0]).length = maxsz / pageSz + 1 := by
  have hpage : pageSz = 256 := rfl
  rcases Nat.lt_or_ge maxsz 256 with hnone | hone
  · have hzero : maxsz / pageSz = 0 := Nat.div_eq_of_lt hnone
    rw [Memphy.format, if_pos hzero, hzero]
    rfl
  · have hframe : maxsz / pageSz = 1 := by
      rw [hpage]
      omega
    rw [Memphy.format, if_neg (by rw [hframe]; decide), if_pos hframe, hframe]
    rfl

/-- The free list of a device is exactly its frames if and only if there are at least two
of them and the size fits an `int`. -/
theorem initMemphy64_exact_iff (maxSize : Addr) :
    FramesExact maxSize ↔ 512 ≤ maxSize.toNat ∧ maxSize.toNat < 2 ^ 31 := by
  constructor
  · intro hexact
    have hlen : (maxSize.setWidth 32).toInt.toNat / pageSz = maxSize.toNat / pageSz := by
      rw [← length_initMemphy64 maxSize true, (hexact true []).1, framesOf, List.length_map,
        List.length_range]
    have hint : maxSize.toNat < 2 ^ 31 := by
      have hlt : (maxSize.setWidth 32).toInt < 2 ^ 31 := BitVec.toInt_lt
      unfold pageSz at hlen
      omega
    refine ⟨?_, hint⟩
    by_contra hsmall
    have hstale := congrArg List.length (hexact true [0]).1
    rw [Memphy.initMemphy64, toInt_setWidth_of_lt hint, Int.toNat_natCast, framesOf,
      List.length_map, List.length_range, Memphy.initMemphy,
      length_format_stale (by omega)] at hstale
    omega
  · rintro ⟨hsize, hint⟩ randomflg stale
    have hframes : (Memphy.initMemphy64 maxSize randomflg stale).freeFpList =
        framesOf maxSize := by
      rw [Memphy.initMemphy64, toInt_setWidth_of_lt hint, Int.toNat_natCast]
      exact Memphy.format_exact (Or.inl hsize)
    exact ⟨hframes, fun calls mp out hrun => getFreefp_eq_none_iff_out hframes hrun⟩

/-- A device of size 0 may have anything on its free list. -/
theorem not_initMemphy64_exact : ¬ ∀ maxSize : Addr, FramesExact maxSize := by
  intro hclaim
  have hlist := (hclaim 0 true [7]).1
  have hframes : framesOf 0 = [] := rfl
  have hstale : (Memphy.initMemphy64 0 true [7]).freeFpList = [7] := rfl
  rw [hframes, hstale] at hlist
  cases hlist

end Memory
end Hdh
