import Hdh.Memory.Frames

/-!
# Page faults

A page that is present is answered at once, and `pte_set_swap` leaves its page present: a
page that is swapped out never faults again.  A fault that fails after `find_victim_page`
does not put the victim back on the list.

Main results:

- Theorem `swapped_not_brought_in`: no reachable state brings a page back from the swap
  device.
- Theorem `failed_access_unchanged_iff`: which failures leave the memory as it was.
- Theorem `swapCpPage_exact`: a page copy changes the bytes of its destination frame and
  nothing else.
- Theorem `eviction_correct`: everything that an eviction changes.
-/

namespace Hdh
namespace Memory

variable {m : Radix.Malloc Nat 0} {k k' : Krnl m} {vma : VmArea}

/-! ## A page that is swapped out -/

/-- A page that is SWAPPED has the entry that `pte_set_swap` leaves. -/
def SetBySwap (pgd : PageDir m) : Prop :=
  ∀ p, pageSwapped (pteGetEntry pgd p) = true →
    ∃ swpoff pte, pteGetEntry pgd p = (entrySetSwap 0 swpoff pte).setWidth 32

/-- A page that is SWAPPED is PRESENT too. -/
theorem SetBySwap.present {pgd : PageDir m} (h : SetBySwap pgd) {p : Addr}
    (hswapped : pageSwapped (pteGetEntry pgd p) = true) :
    pagePresent (pteGetEntry pgd p) = true := by
  obtain ⟨swpoff, pte, hentry⟩ := h p hswapped
  rw [hentry, pagePresent_setSwap]

/-- `pte_set_fpn` leaves no page SWAPPED in another way. -/
theorem SetBySwap.setFpn {pgd : PageDir m} (h : SetBySwap pgd) (pgn fpn : Addr) :
    SetBySwap (pteSetFpn pgd pgn fpn).2 := by
  intro p hswapped
  rw [pteGetEntry_setFpn] at hswapped ⊢
  split_ifs at hswapped ⊢
  · rw [pageSwapped_setFpn] at hswapped
    cases hswapped
  · exact h p hswapped

/-- `pte_set_swap` sets a page as it is to be. -/
theorem SetBySwap.setSwap {pgd : PageDir m} (h : SetBySwap pgd) (pgn swpoff : Addr) :
    SetBySwap (pteSetSwap pgd pgn 0 swpoff).2 := by
  intro p hswapped
  rw [pteGetEntry_setSwap] at hswapped ⊢
  split_ifs at hswapped ⊢
  · exact ⟨swpoff, _, rfl⟩
  · exact h p hswapped

/-- New mappings make no page SWAPPED. -/
theorem SetBySwap.mapPages {mm : Mm m} (h : SetBySwap mm.pgd) (pfs : List (Addr × Addr)) :
    SetBySwap (mm.mapPages pfs).pgd := by
  induction pfs generalizing mm with
  | nil => exact h
  | cons pf pfs ih =>
      have htouch : SetBySwap (mm.pgd.touch (getPdFromPagenum pf.1).path
          (Nat.le_of_eq (PdIndex.length_path _))) := by
        intro p
        rw [pteGetEntry, Radix.Table.get_touch _ _ _ (PdIndex.length_path _)]
        exact h p
      exact ih (htouch.setFpn pf.1 pf.2)

/-- Every page access keeps this. -/
theorem SetBySwap.page (h : SetBySwap k.mm.pgd) {pgn : Addr} {res : Option Addr}
    (hpage : PageStep k pgn res k') : SetBySwap k'.mm.pgd := by
  cases hpage with
  | present => exact h
  | noVictim => exact h
  | dropped => exact h
  | evicted => exact (h.setSwap _ _).setFpn _ _

/-- So does every instruction. -/
theorem SetBySwap.step (h : SetBySwap k.mm.pgd) {call : MemCall} {a : Answer}
    (hstep : MemStep k vma call a k') : SetBySwap k'.mm.pgd := by
  cases hstep with
  | hit => exact h
  | grow => exact h.mapPages _
  | freed => exact h
  | notFreed => exact h
  | rejected => exact h
  | failed _ _ hpage => exact h.page hpage
  | read _ hpage => exact h.page hpage
  | written _ hpage =>
      have hpages := h.page hpage
      exact hpages

/-- No page is SWAPPED at the beginning. -/
theorem setBySwap_boot (b : Boot) : SetBySwap (b.krnl : Krnl m).mm.pgd := by
  intro p hswapped
  rw [pteGetEntry_boot] at hswapped
  exact absurd hswapped (by decide)

/-- In every reachable state, a SWAPPED page has been set by `pte_set_swap`. -/
theorem setBySwap_of_run (b : Boot) {es : List (MemCall × Answer)} {k : Krnl m}
    (hrun : Lts.Run (Stepped fun _ _ _ => True) b.krnl es k) : SetBySwap k.mm.pgd := by
  have hinv := invariant_of_boot (I := fun k => SetBySwap k.mm.pgd) b hrun
    (setBySwap_boot b) fun _ _ _ _ _ _ hset _ hstep => hset.step hstep
  exact hinv.2

/-- Page `pgn` is back in frame `fpn` of RAM, with the bytes that a swap frame held
before. -/
structure BroughtIn (k : Krnl m) (pgn swpfpn fpn : Addr) (k' : Krnl m) : Prop where
  present : pagePresent (pteGetEntry k'.mm.pgd pgn) = true
  not_swapped : pageSwapped (pteGetEntry k'.mm.pgd pgn) = false
  fpn_eq : fpn = pagingFpn (pteGetEntry k'.mm.pgd pgn)
  bytes : ∀ i < pageSz, k'.mram.storage (fpn.toNat * pageSz + i) =
    k.activeMswp.storage (swpfpn.toNat * pageSz + i)

/-- A page access that answers 0 brings the page back from a swap frame. -/
def BringsIn (k : Krnl m) (pgn swpfpn : Addr) : Prop :=
  ∀ fpn k', pgGetpage k pgn = some (0, fpn, k') → BroughtIn k pgn swpfpn fpn k'

/-- A page that is SWAPPED and PRESENT is answered as it is. -/
theorem not_bringsIn {pgn : Addr} (hswapped : pageSwapped (pteGetEntry k.mm.pgd pgn) = true)
    (hpresent : pagePresent (pteGetEntry k.mm.pgd pgn) = true) (swpfpn : Addr) :
    ¬ BringsIn k pgn swpfpn := by
  intro hbrings
  have hnot := (hbrings _ _ (pgGetpage_present hpresent)).not_swapped
  rw [hswapped] at hnot
  cases hnot

/-- In no reachable state does `pg_getpage` bring a page back that is SWAPPED: it answers
0 with a part of the swap offset as the frame, and changes nothing. -/
theorem swapped_not_brought_in (b : Boot) {es : List (MemCall × Answer)} {k : Krnl m}
    (hrun : Lts.Run (Stepped fun _ _ _ => True) b.krnl es k) {pgn : Addr}
    (hswapped : pageSwapped (pteGetEntry k.mm.pgd pgn) = true) :
    pgGetpage k pgn = some (0, pagingFpn (pteGetEntry k.mm.pgd pgn), k) ∧
      ∀ swpfpn, ¬ BringsIn k pgn swpfpn := by
  have hpresent := (setBySwap_of_run b hrun).present hswapped
  exact ⟨pgGetpage_present hpresent, not_bringsIn hswapped hpresent⟩

/-- Page 1 is faulted in for page 0, whose next access answers frame 0 as if the page
were still there. -/
theorem swapped_not_brought_in_page_zero :
    ∃ (es : List (MemCall × Answer)) (k : Krnl countingMalloc),
      Lts.Run (Stepped fun _ _ _ => True) smallBoot.krnl es k ∧
      pageSwapped (pteGetEntry k.mm.pgd 0) = true ∧
      pgGetpage k 0 = some (0, pagingFpn (pteGetEntry k.mm.pgd 0), k) := by
  obtain ⟨es, k, hrun, hobs⟩ := Lts.record_observe
    (fun (_ : Krnl countingMalloc) (_ : MemCall) _ => True)
    (fun k call => call.run k) smallBoot.krnl
    [.alloc soleCaller 0 512, .write 0 0 1, .write 0 256 2]
    (fun _ k => pageSwapped (pteGetEntry k.mm.pgd 0)) (v := true) (by decide +kernel)
  exact ⟨es, k, hrun, hobs, (swapped_not_brought_in smallBoot hrun hobs).1⟩

/-- After the same instructions, page 0 is SWAPPED to frame 0 of the swap device. -/
theorem not_swapped_brought_in :
    ¬ ∀ (b : Boot) (es : List (MemCall × Answer)) (k : Krnl countingMalloc),
      Lts.Run (Stepped fun _ call _ => call.InRange) b.krnl es k →
      ∀ pgn, pageSwapped (pteGetEntry k.mm.pgd pgn) = true →
        BringsIn k pgn (pagingSwp (pteGetEntry k.mm.pgd pgn)) := by
  intro hclaim
  obtain ⟨es, k, hrun, hobs⟩ := Lts.record_observe
    (fun (_ : Krnl countingMalloc) (call : MemCall) _ => call.InRange)
    (fun k call => call.run k) smallBoot.krnl
    [.alloc soleCaller 0 512, .write 0 0 1, .write 0 256 2]
    (fun _ k => (pageSwapped (pteGetEntry k.mm.pgd 0), pagePresent (pteGetEntry k.mm.pgd 0)))
    (v := (true, true)) (by decide +kernel)
  obtain ⟨hswapped, hpresent⟩ := Prod.mk.inj hobs
  exact not_bringsIn hswapped hpresent _ (hclaim smallBoot es k hrun 0 hswapped)

/-! ## Failures -/

/-- The page table, the list and both devices are the same, up to the order of the free
frames. -/
structure Unchanged (k k' : Krnl m) : Prop where
  pgd : ∀ p, pageEntry k'.mm.pgd p = pageEntry k.mm.pgd p
  fifoPgn : k'.mm.fifoPgn = k.mm.fifoPgn
  mramFree : k'.mram.freeFpList.Perm k.mram.freeFpList
  mswpFree : k'.activeMswp.freeFpList.Perm k.activeMswp.freeFpList
  mramBytes : k'.mram.storage = k.mram.storage
  mswpBytes : k'.activeMswp.storage = k.activeMswp.storage

/-- Nothing is changed when nothing is done. -/
theorem Unchanged.refl (k : Krnl m) : Unchanged k k :=
  ⟨fun _ => rfl, rfl, .refl _, .refl _, rfl, rfl⟩

/-- A page access that answers -1 changes nothing. -/
def FailsUnchanged (k : Krnl m) (pgn : Addr) : Prop :=
  ∀ fpn k', pgGetpage k pgn = some (-1, fpn, k') → Unchanged k k'

/-- A fault whose victim cannot be evicted fails, and the victim is off the list. -/
theorem not_failsUnchanged {pgn vicpgn : Addr} {fifoPgn : List Addr}
    (habsent : pagePresent (pteGetEntry k.mm.pgd pgn) = false)
    (hfifo : k.mm.fifoPgn = fifoPgn ++ [vicpgn]) (hvictim : ¬ Evictable k vicpgn) :
    ¬ FailsUnchanged k pgn := by
  intro hfails
  have hsame := (hfails _ _ (pgGetpage_stuck habsent hfifo hvictim)).fifoPgn
  simp only [hfifo] at hsame
  have hlength := congrArg List.length hsame
  rw [List.length_append, List.length_singleton] at hlength
  omega

/-- A failed page access changes nothing if and only if the page is present, no page is on
the list, or the last page of the list can be evicted: `pg_getpage` puts the swap frame
back that it has taken, but not the victim. -/
theorem failed_access_unchanged_iff (k : Krnl m) (pgn : Addr) :
    FailsUnchanged k pgn ↔ pagePresent (pteGetEntry k.mm.pgd pgn) = true ∨
      ∀ vicpgn ∈ k.mm.fifoPgn.getLast?, Evictable k vicpgn := by
  cases pageFound k pgn with
  | present hpresent =>
      refine iff_of_true ?_ (Or.inl hpresent)
      intro fpn k' hget
      rw [pgGetpage_present hpresent] at hget
      cases hget
  | noVictim habsent hfifo =>
      refine iff_of_true ?_ (Or.inr (by simp [hfifo]))
      intro fpn k' hget
      rw [pgGetpage_noVictim habsent hfifo] at hget
      cases hget
      exact Unchanged.refl k
  | stuck habsent hfifo hvictim =>
      refine iff_of_false (not_failsUnchanged habsent hfifo hvictim) ?_
      simp [habsent, hfifo, hvictim]
  | victim habsent hfifo hvictim hfree =>
      refine iff_of_true ?_ (Or.inr (by simp [hfifo, Evictable, hfree, hvictim]))
      intro fpn k' hget
      rw [pgGetpage_evict habsent hfifo hvictim hfree] at hget
      obtain ⟨r, -, heq⟩ := Option.map_eq_some_iff.mp hget
      cases heq

/-- A swap device of two frames. -/
def twoFrameSwap : Boot where
  __ := smallBoot
  memswpsz := 512
  memswpsz_lt := by decide

/-- When the swap device is full, an access to page 3 fails and takes page 2 off the
list. -/
theorem not_failed_access_unchanged :
    ¬ ∀ (b : Boot) (es : List (MemCall × Answer)) (k : Krnl countingMalloc),
      Lts.Run (Stepped fun _ call _ => call.InRange) b.krnl es k →
      ∀ pgn, FailsUnchanged k pgn := by
  intro hclaim
  obtain ⟨es, k, hrun, hobs⟩ := Lts.record_observe
    (fun (_ : Krnl countingMalloc) (call : MemCall) _ => call.InRange)
    (fun k call => call.run k) twoFrameSwap.krnl
    [.alloc soleCaller 0 1024, .write 0 256 1, .write 0 512 2]
    (fun _ k => (k.mm.fifoPgn, k.activeMswp.freeFpList,
      pagePresent (pteGetEntry k.mm.pgd 3)))
    (v := ([2], [], false)) (by decide +kernel)
  obtain ⟨hfifo, hfree, habsent⟩ : k.mm.fifoPgn = [2] ∧ k.activeMswp.freeFpList = [] ∧
      pagePresent (pteGetEntry k.mm.pgd 3) = false := by simpa using hobs
  have hlast : k.mm.fifoPgn = [] ++ [2] := hfifo
  exact not_failsUnchanged habsent hlast (fun hvictim => hvictim.1 hfree)
    (hclaim twoFrameSwap es k hrun 3)

/-! ## The page copy -/

/-- A frame of a device whose size is an `int` has a small number. -/
theorem Memphy.HasFrame.lt {mp : Memphy} {fpn : Addr} (h : mp.HasFrame fpn)
    (hmax : mp.maxsz < 2 ^ 31) : fpn.toNat < 2 ^ 55 := by
  have hinside := Memphy.hasFrame_iff.mp h
  omega

/-- What a page copy leaves behind: the source device as it was, its bytes in the
destination frame, and everything else of the destination device as it was. -/
structure PageCopied (mpsrc : Memphy) (srcfpn : Addr) (mpdst : Memphy) (dstfpn : Addr)
    (mpsrc' mpdst' : Memphy) : Prop where
  source : mpsrc' = mpsrc
  bytes : ∀ i < pageSz, mpdst'.storage (dstfpn.toNat * pageSz + i) =
    mpsrc.storage (srcfpn.toNat * pageSz + i)
  rest : ∀ a, ¬ (dstfpn.toNat * pageSz ≤ a ∧ a < dstfpn.toNat * pageSz + pageSz) →
    mpdst'.storage a = mpdst.storage a
  freeFpList : mpdst'.freeFpList = mpdst.freeFpList
  cursor : mpdst'.cursor = mpdst.cursor
  maxsz : mpdst'.maxsz = mpdst.maxsz
  rdmflg : mpdst'.rdmflg = mpdst.rdmflg

/-- Copying the bytes of a frame is a page copy. -/
theorem pageCopied_copied (mpsrc : Memphy) (srcfpn : Addr) (mpdst : Memphy) (dstfpn : Addr) :
    PageCopied mpsrc srcfpn mpdst dstfpn mpsrc { mpdst with
      storage := copied mpsrc.storage mpdst.storage srcfpn dstfpn pageSz } where
  source := rfl
  bytes := by
    intro i hi
    unfold pageSz at hi ⊢
    simp only [copied]
    rw [if_pos (by omega), Nat.add_sub_cancel_left]
  rest := by
    intro a ha
    unfold pageSz at ha ⊢
    simp only [copied]
    rw [if_neg ha]
  freeFpList := rfl
  cursor := rfl
  maxsz := rfl
  rdmflg := rfl

/-- A page copy between frames of two devices with random access is defined, answers 0 and
is exact. -/
theorem swapCpPage_exact {mpsrc mpdst : Memphy} {srcfpn dstfpn : Addr}
    (hsrc : mpsrc.rdmflg = true) (hdst : mpdst.rdmflg = true)
    (hsrcmax : mpsrc.maxsz < 2 ^ 31) (hdstmax : mpdst.maxsz < 2 ^ 31)
    (hsrcfpn : mpsrc.HasFrame srcfpn) (hdstfpn : mpdst.HasFrame dstfpn) :
    ∃ mpsrc' mpdst', swapCpPage mpsrc srcfpn mpdst dstfpn = some (0, mpsrc', mpdst') ∧
      PageCopied mpsrc srcfpn mpdst dstfpn mpsrc' mpdst' := by
  have hcopy := swapCpPage_eq hsrc hdst (hsrcfpn.lt hsrcmax) (hdstfpn.lt hdstmax)
    (Memphy.hasFrame_iff.mp hsrcfpn) (Memphy.hasFrame_iff.mp hdstfpn)
  exact ⟨_, _, hcopy, pageCopied_copied mpsrc srcfpn mpdst dstfpn⟩

/-- The last frame of RAM is copied to the first one of a swap device. -/
theorem swapCpPage_exact_last_frame :
    let mram : Memphy :=
      { storage := fun a => BitVec.ofNat 8 a, maxsz := 1024, rdmflg := true, cursor := 3,
        freeFpList := [1] }
    let mswp : Memphy :=
      { storage := fun _ => 9, maxsz := 512, rdmflg := true, cursor := 0, freeFpList := [1] }
    ∃ mram' mswp', swapCpPage mram 3 mswp 0 = some (0, mram', mswp') ∧
      PageCopied mram 3 mswp 0 mram' mswp' := by
  intro mram mswp
  exact swapCpPage_exact rfl rfl (by decide) (by decide)
    (by decide : (3 : Addr).toNat < 1024 / 256) (by decide : (0 : Addr).toNat < 512 / 256)

/-! ## Evictions -/

/-- An eviction changes the entries of the victim and of the page only. -/
theorem pageEntry_evict (pgd : PageDir m) {vicpgn pgn q : Addr} (swpfpn vicfpn : Addr)
    (hpgn : pageKey q ≠ pageKey pgn) (hvicpgn : pageKey q ≠ pageKey vicpgn) :
    pageEntry (evictPgd pgd vicpgn swpfpn pgn vicfpn) q = pageEntry pgd q := by
  simp only [evictPgd, pteSetFpn, pteSetSwap, pageEntry_setPte, if_neg hpgn,
    if_neg hvicpgn]

/-- What an eviction leaves: page `pgn` is in frame `vicfpn`, the victim is in frame
`swpfpn` of the swap device, and nothing else has changed. -/
structure Evicted (k : Krnl m) (pgn vicpgn vicfpn swpfpn : Addr)
    (fifoPgn rest : List Addr) (k' : Krnl m) : Prop where
  page : pageView (pteGetEntry k'.mm.pgd pgn) = .resident vicfpn
  victim : pageView (pteGetEntry k'.mm.pgd vicpgn) = .swapped swpfpn
  other_entries : ∀ q, pageKey q ≠ pageKey pgn → pageKey q ≠ pageKey vicpgn →
    pageEntry k'.mm.pgd q = pageEntry k.mm.pgd q
  fifoPgn_eq : k'.mm.fifoPgn = pgn :: fifoPgn
  mswp_frame : ∀ i < pageSz, k'.activeMswp.storage (swpfpn.toNat * pageSz + i) =
    k.mram.storage (vicfpn.toNat * pageSz + i)
  mswp_rest : ∀ a, ¬ (swpfpn.toNat * pageSz ≤ a ∧ a < swpfpn.toNat * pageSz + pageSz) →
    k'.activeMswp.storage a = k.activeMswp.storage a
  mswp_free : k'.activeMswp.freeFpList = rest
  mram : k'.mram = k.mram

/-- The kernel after an eviction, with the bytes of the frame in the swap device. -/
theorem evicted_evict {pgn vicpgn vicfpn swpfpn : Addr} {rest : List Addr}
    (fifoPgn : List Addr) {mswp : Memphy} (hkey : pageKey vicpgn ≠ pageKey pgn)
    (hfpn : pagingFpn (pteGetEntry k.mm.pgd vicpgn) = vicfpn) (hoff : SwpoffFits swpfpn)
    (hbytes : mswp.storage =
      copied k.mram.storage k.activeMswp.storage vicfpn swpfpn pageSz)
    (hrest : mswp.freeFpList = rest) :
    Evicted k pgn vicpgn vicfpn swpfpn fifoPgn rest
      (k.evict vicpgn swpfpn pgn fifoPgn mswp) := by
  have hviews := views_evict k.mm.pgd vicpgn swpfpn pgn
    (pagingFpn_fits (pteGetEntry k.mm.pgd vicpgn))
  rw [hfpn, swapSlot_of_fits hoff] at hviews
  have hcopied := pageCopied_copied k.mram vicfpn k.activeMswp swpfpn
  constructor
  · rw [← views_pageKey, Krnl.evict, hfpn, hviews, Function.update_self]
  · rw [← views_pageKey, Krnl.evict, hfpn, hviews, Function.update_of_ne hkey,
      Function.update_self]
  · exact fun q hpgn hvicpgn => pageEntry_evict _ _ _ hpgn hvicpgn
  · rfl
  · intro i hi
    rw [Krnl.evict, hbytes]
    exact hcopied.bytes i hi
  · intro a ha
    rw [Krnl.evict, hbytes]
    exact hcopied.rest a ha
  · exact hrest
  · rfl

/-- A fault whose victim is in RAM is a correct eviction, when there is a free swap
frame. -/
theorem eviction_correct {pgn vicpgn vicfpn swpfpn : Addr} {fifoPgn rest : List Addr}
    (hpgn : pgn.toNat < 2 ^ 45) (hvicpgn : vicpgn.toNat < 2 ^ 45) (hne : vicpgn ≠ pgn)
    (habsent : pagePresent (pteGetEntry k.mm.pgd pgn) = false)
    (hfifo : k.mm.fifoPgn = fifoPgn ++ [vicpgn])
    (hvictim : pageView (pteGetEntry k.mm.pgd vicpgn) = .resident vicfpn)
    (hram : k.mram.HasFrame vicfpn)
    (hfree : k.activeMswp.freeFpList = swpfpn :: rest)
    (hswap : k.activeMswp.HasFrame swpfpn) (hoff : SwpoffFits swpfpn)
    (hmram : k.mram.rdmflg = true) (hmswp : k.activeMswp.rdmflg = true) :
    ∃ k', pgGetpage k pgn = some (0, vicfpn, k') ∧
      Evicted k pgn vicpgn vicfpn swpfpn fifoPgn rest k' := by
  obtain ⟨hpresent, hfpn⟩ := pageView_eq_resident hvictim
  have hfits : FpnFits vicfpn := hfpn ▸ pagingFpn_fits _
  have hkey : pageKey vicpgn ≠ pageKey pgn := fun h => hne (pageKey_inj hvicpgn hpgn h)
  have hdst : ({ k.activeMswp with freeFpList := rest } : Memphy).rdmflg = true := hmswp
  have hcopy := swapCpPage_eq hmram hdst (Nat.lt_of_lt_of_le hfits (by decide))
    (Nat.lt_of_lt_of_le hoff (by decide)) (Memphy.hasFrame_iff.mp hram)
    (Memphy.hasFrame_iff.mp hswap)
  have hget := pgGetpage_evict habsent hfifo hpresent hfree
  rw [hfpn, hcopy] at hget
  exact ⟨_, hget, evicted_evict fifoPgn hkey hfpn hoff rfl rfl⟩

/-- Page 0 is evicted for page 1, after an allocation of one page. -/
theorem eviction_correct_page_zero :
    ∃ (es : List (MemCall × Answer)) (k k' : Krnl countingMalloc),
      Lts.Run (Stepped fun _ _ _ => True) smallBoot.krnl es k ∧
      pgGetpage k 1 = some (0, 0, k') ∧
      Evicted k 1 0 0 0 [] ((List.range 15).map fun i => BitVec.ofNat 64 (i + 1)) k' := by
  obtain ⟨es, k, hrun, hobs⟩ := Lts.record_observe
    (fun (_ : Krnl countingMalloc) (_ : MemCall) _ => True)
    (fun k call => call.run k) smallBoot.krnl [.alloc soleCaller 0 512, .write 0 0 1]
    (fun _ k => ((pagePresent (pteGetEntry k.mm.pgd 1), k.mm.fifoPgn,
      pageView (pteGetEntry k.mm.pgd 0), k.activeMswp.freeFpList),
      (k.mram.maxsz, k.activeMswp.maxsz, k.mram.rdmflg, k.activeMswp.rdmflg)))
    (v := ((false, [0], .resident 0, (List.range 16).map fun i => BitVec.ofNat 64 i),
      (2048, 4096, true, true))) (by decide +kernel)
  simp only [Prod.mk.injEq] at hobs
  obtain ⟨⟨habsent, hfifo, hvictim, hfree⟩, hmax, hswpmax, hmram, hmswp⟩ := hobs
  have hlast : k.mm.fifoPgn = [] ++ [0] := hfifo
  obtain ⟨k', hget, hevicted⟩ := eviction_correct
    (by decide) (by decide) (by decide) habsent hlast hvictim
    (by rw [Memphy.HasFrame, hmax]; decide) hfree
    (by rw [Memphy.HasFrame, hswpmax]; decide) (by decide) hmram hmswp
  exact ⟨es, k, k', hrun, hget, hevicted⟩

end Memory
end Hdh
