import Hdh.Memory.Frames

/-!
# The replacement list

`fifo_pgn` is meant to hold the pages that are resident in RAM, so that the victim of an
eviction can be taken from it.  Two things break this: a growth that maps a page again
which has been faulted in enlists it a second time, and a fault that finds no swap frame
has already taken its victim off the list.

Main results:

- Theorems `Tracked.page_iff` and `Tracked.grow_iff`: which page accesses and which
  growths keep the list in step with the page table.
- Theorem `fifo_tracks_residency`: the list holds the resident pages, each of them once,
  in the runs without such growths and faults.
-/

namespace Hdh
namespace Memory

variable {m : Radix.Malloc Nat 0} {k k' : Krnl m} {vma : VmArea}

/-- The page is in RAM. -/
def PageView.inRam : PageView → Bool
  | .resident _ => true
  | _ => false

theorem inRam_pageView (pte : BitVec 32) :
    (pageView pte).inRam = (pagePresent pte && !pageSwapped pte) := by
  unfold pageView
  cases pagePresent pte <;> cases pageSwapped pte <;> rfl

/-- The list holds the pages whose entry is PRESENT and not SWAPPED, each of them once. -/
def TracksResidency (k : Krnl m) : Prop :=
  ∀ p : Addr, (k.mm.fifoPgn.map pageKey).count (pageKey p) =
    if pagePresent (pteGetEntry k.mm.pgd p) = true ∧
        pageSwapped (pteGetEntry k.mm.pgd p) = false then 1 else 0

/-- The same for the indices of the page table. -/
structure Tracked (k : Krnl m) : Prop where
  nodup : (k.mm.fifoPgn.map pageKey).Nodup
  mem_iff : ∀ key, key ∈ k.mm.fifoPgn.map pageKey ↔ (views k.mm.pgd key).inRam = true

/-- The property in terms of what the page table says. -/
theorem tracksResidency_iff : TracksResidency k ↔ Tracked k := by
  have hentry : ∀ p : Addr, (views k.mm.pgd (pageKey p)).inRam = true ↔
      pagePresent (pteGetEntry k.mm.pgd p) = true ∧
        pageSwapped (pteGetEntry k.mm.pgd p) = false := by
    intro p
    rw [views_pageKey, inRam_pageView]
    simp
  constructor
  · intro h
    have hcount : ∀ key, (k.mm.fifoPgn.map pageKey).count key =
        if (views k.mm.pgd key).inRam = true then 1 else 0 := by
      intro key
      have hp := h (key.setWidth 64)
      simp only [← hentry, pageKey_setWidth] at hp
      exact hp
    constructor
    · rw [List.nodup_iff_count_le_one]
      intro key
      rw [hcount]
      split_ifs <;> omega
    · intro key
      rw [← List.count_pos_iff, hcount]
      split_ifs with hres <;> simp [hres]
  · intro h p
    simp only [← hentry, ← h.mem_iff]
    split_ifs with hmem
    · exact List.count_eq_one_of_mem h.nodup hmem
    · exact List.count_eq_zero_of_not_mem hmem

/-- A growth of the area maps no page that is in RAM. -/
def AllocNotInRam (k : Krnl m) : MemCall → Prop
  | .alloc caller _ size =>
      ∀ vma ∈ k.mm.mmap, ¬ Fits vma size → ∀ pf ∈ growPairs k vma caller size,
        (views k.mm.pgd (pageKey pf.1)).inRam = false
  | _ => True

/-- A fault that takes a victim finds a free swap frame. -/
def FaultServed (k : Krnl m) (pgn : Addr) : Prop :=
  pagePresent (pteGetEntry k.mm.pgd pgn) = false → k.mm.fifoPgn ≠ [] →
    k.activeMswp.freeFpList ≠ []

/-- The instructions that keep the list in step with the page table. -/
def ReplacementSafe (k : Krnl m) (call : MemCall) : Prop :=
  AllocNotInRam k call ∧ ∀ vaddr ∈ call.vaddr k, FaultServed k (pagingPgn vaddr)

/-! ## What each step does -/

/-- It depends on the page table and on the list only. -/
theorem Tracked.congr (h : Tracked k) (hpgd : k'.mm.pgd = k.mm.pgd)
    (hfifo : k'.mm.fifoPgn = k.mm.fifoPgn) : Tracked k' := by
  constructor
  · rw [hfifo]
    exact h.nodup
  · rw [hfifo, hpgd]
    exact h.mem_iff

theorem tracked_poke_iff (phyaddr : Addr) (value : Byte) :
    Tracked (k.poke phyaddr value) ↔ Tracked k :=
  ⟨fun h => h.congr rfl rfl, fun h => h.congr rfl rfl⟩

/-- The victim is in RAM, and it is not on the rest of the list. -/
theorem Tracked.victim (h : Tracked k) {vicpgn : Addr} {fifoPgn : List Addr}
    (hfifo : k.mm.fifoPgn = fifoPgn ++ [vicpgn]) :
    (views k.mm.pgd (pageKey vicpgn)).inRam = true ∧
      pageKey vicpgn ∉ fifoPgn.map pageKey := by
  have hnodup := h.nodup
  rw [hfifo, List.map_append, List.nodup_append] at hnodup
  constructor
  · rw [← h.mem_iff, hfifo]
    simp
  · intro hmem
    exact hnodup.2.2 _ hmem _ (by simp) rfl

theorem pagePresent_of_inRam {pgn : Addr}
    (h : (views k.mm.pgd (pageKey pgn)).inRam = true) :
    pagePresent (pteGetEntry k.mm.pgd pgn) = true := by
  rw [views_pageKey, inRam_pageView, Bool.and_eq_true] at h
  exact h.1

/-- An eviction exchanges the victim and the page, in RAM and on the list. -/
theorem Tracked.evict (h : Tracked k) {pgn vicpgn swpfpn : Addr} {fifoPgn : List Addr}
    (habsent : pagePresent (pteGetEntry k.mm.pgd pgn) = false)
    (hfifo : k.mm.fifoPgn = fifoPgn ++ [vicpgn]) (hfifo' : k'.mm.fifoPgn = pgn :: fifoPgn)
    (hpgd : k'.mm.pgd = evictPgd k.mm.pgd vicpgn swpfpn pgn
      (pagingFpn (pteGetEntry k.mm.pgd vicpgn))) : Tracked k' := by
  obtain ⟨hvictim, hvicnot⟩ := h.victim hfifo
  have habs := (views_eq_absent_iff _ _).mpr habsent
  have hviews := views_evict k.mm.pgd vicpgn swpfpn pgn
    (pagingFpn_fits (pteGetEntry k.mm.pgd vicpgn))
  have hmem := h.mem_iff
  simp only [hfifo, List.map_append, List.map_singleton, List.mem_append,
    List.mem_singleton] at hmem
  have hpgnnot : pageKey pgn ∉ fifoPgn.map pageKey := by
    intro hin
    have hres := (hmem (pageKey pgn)).mp (Or.inl hin)
    rw [habs] at hres
    cases hres
  have hnodup := h.nodup
  rw [hfifo, List.map_append] at hnodup
  constructor
  · rw [hfifo']
    exact List.nodup_cons.mpr ⟨hpgnnot, hnodup.of_append_left⟩
  · intro key
    rw [hfifo', List.map_cons, List.mem_cons, hpgd, hviews]
    by_cases hkey : key = pageKey pgn
    · rw [hkey, Function.update_self]
      simp [PageView.inRam]
    · rw [Function.update_of_ne hkey]
      by_cases hvic : key = pageKey vicpgn
      · rw [hvic, Function.update_self]
        rw [hvic] at hkey
        simp [hkey, hvicnot, PageView.inRam]
      · rw [Function.update_of_ne hvic, ← hmem key]
        simp [hkey, hvic]

/-- Which page accesses keep the list in step. -/
theorem Tracked.page_iff (h : Tracked k) {pgn : Addr} {res : Option Addr}
    (hpage : PageStep k pgn res k') : Tracked k' ↔ FaultServed k pgn := by
  cases hpage with
  | present hpresent =>
      refine iff_of_true h ?_
      intro habsent
      rw [hpresent] at habsent
      cases habsent
  | noVictim _ hfifo => exact iff_of_true h fun _ hne => absurd hfifo hne
  | @dropped vicpgn fifoPgn habsent hfifo hfail =>
      obtain ⟨hvictim, hvicnot⟩ := h.victim hfifo
      apply iff_of_false
      · -- the victim is still in RAM
        intro h'
        exact hvicnot ((h'.mem_iff (pageKey vicpgn)).mpr hvictim)
      · intro hserved
        rcases hfail with hfull | hnot
        · exact hserved habsent (by rw [hfifo]; simp) hfull
        · rw [pagePresent_of_inRam hvictim] at hnot
          cases hnot
  | @evicted vicpgn swpfpn fifoPgn rest mswp habsent hfifo hvictim hfree hrest hmax =>
      refine iff_of_true (h.evict habsent hfifo rfl rfl) ?_
      intro _ _
      rw [hfree]
      exact List.cons_ne_nil _ _

/-- Which growths keep the list in step. -/
theorem Tracked.grow_iff (h : Tracked k) (caller : Caller) (i : Fin maxSymtblSz)
    (size : Addr) (freerg : List VmRg) :
    Tracked (k.grow vma caller i size freerg) ↔
      ∀ pf ∈ growPairs k vma caller size,
        (views k.mm.pgd (pageKey pf.1)).inRam = false := by
  constructor
  · intro h' pf hpf
    -- a page in RAM would be on the list twice
    have hnot := (nodup_fifoPgn_grow_iff h.nodup caller i size freerg).mp h'.nodup pf hpf
    rwa [h.mem_iff, Bool.not_eq_true] at hnot
  · intro hnot
    constructor
    · rw [nodup_fifoPgn_grow_iff h.nodup]
      intro pf hpf
      rw [h.mem_iff, hnot pf hpf]
      exact Bool.false_ne_true
    · intro key
      rw [keys_fifoPgn_grow, List.mem_append, List.mem_reverse]
      by_cases hkey : key ∈ (growPairs k vma caller size).map fun pf => pageKey pf.1
      · obtain ⟨pf, hpf, rfl⟩ := List.mem_map.mp hkey
        rw [views_grow_of_mem i freerg hpf]
        exact iff_of_true (Or.inl hkey) rfl
      · rw [views_grow_of_not_mem i freerg hkey, ← h.mem_iff]
        simp only [hkey, false_or]

/-- A call that accesses no page is safe when it maps none that is in RAM. -/
theorem replacementSafe_iff_of_no_access {call : MemCall} (hvaddr : call.vaddr k = none) :
    ReplacementSafe k call ↔ AllocNotInRam k call := by
  simp [ReplacementSafe, hvaddr]

/-- A `READ` or a `WRITE` maps nothing. -/
theorem allocNotInRam_of_target {call : MemCall} {target : Int × Addr}
    (h : call.target = some target) : AllocNotInRam k call := by
  rcases call.eq_of_target h with rfl | ⟨value, rfl⟩ <;> exact trivial

/-- A call that accesses a page is safe when its fault is served. -/
theorem replacementSafe_iff_of_access {call : MemCall} {rgid : Int} {offset : Addr}
    {vaddr : BitVec 32} (htarget : call.target = some (rgid, offset))
    (haddr : accessAddr k 0 rgid offset = some (some vaddr)) :
    ReplacementSafe k call ↔ FaultServed k (pagingPgn vaddr) := by
  simp [ReplacementSafe, allocNotInRam_of_target htarget, MemCall.vaddr_eq htarget haddr]

/-- Which instructions keep the list in step with the page table. -/
theorem tracked_step_iff (h : Tracked k) (harea : OneArea k vma) {call : MemCall}
    {a : Answer} (hstep : MemStep k vma call a k') :
    Tracked k' ↔ ReplacementSafe k call := by
  cases hstep with
  | @hit caller rgid size i rg freerg hindex hget =>
      rw [replacementSafe_iff_of_no_access rfl]
      refine iff_of_true (h.congr rfl rfl) ?_
      intro vma' hvma' hfits
      rw [harea.mmap, List.mem_singleton] at hvma'
      rw [hvma'] at hfits
      exact absurd (by simp [Fits, hget]) hfits
  | @grow caller rgid size i freerg hindex hget =>
      rw [replacementSafe_iff_of_no_access rfl, h.grow_iff]
      simp [AllocNotInRam, harea.mmap, not_fits_of_none hget]
  | freed =>
      rw [replacementSafe_iff_of_no_access rfl]
      exact iff_of_true (h.congr rfl rfl) trivial
  | notFreed =>
      rw [replacementSafe_iff_of_no_access rfl]
      exact iff_of_true h trivial
  | rejected htarget haddr =>
      rw [replacementSafe_iff_of_no_access (by simp [MemCall.vaddr, htarget, haddr])]
      exact iff_of_true h (allocNotInRam_of_target htarget)
  | failed htarget haddr hpage =>
      rw [replacementSafe_iff_of_access htarget haddr, h.page_iff hpage]
  | read haddr hpage =>
      rw [replacementSafe_iff_of_access rfl haddr, h.page_iff hpage]
  | written haddr hpage =>
      rw [replacementSafe_iff_of_access rfl haddr, tracked_poke_iff, h.page_iff hpage]

/-! ## Runs -/

/-- The list is empty at the beginning, and no page is in RAM. -/
theorem tracked_boot (b : Boot) : Tracked (b.krnl : Krnl m) := by
  constructor
  · exact List.nodup_nil
  · intro key
    rw [views_boot]
    exact iff_of_false (List.not_mem_nil) Bool.false_ne_true

/-- The replacement list tracks residency, as long as a growth maps no page that is in
RAM and a fault that takes a victim finds a swap frame: it holds the pages whose entry is
PRESENT and not SWAPPED, each of them once, so that every victim is in RAM.  An
instruction that does otherwise leaves the list out of step. -/
theorem fifo_tracks_residency (b : Boot) {es : List (MemCall × Answer)} {k : Krnl m}
    (hrun : Lts.Run (Stepped fun k call _ => ReplacementSafe k call) b.krnl es k) :
    TracksResidency k ∧
      (∀ vicpgn rest, findVictimPage k.mm.fifoPgn = some (vicpgn, rest) →
        pagePresent (pteGetEntry k.mm.pgd vicpgn) = true ∧
          pageSwapped (pteGetEntry k.mm.pgd vicpgn) = false) ∧
      ∀ (call : MemCall) (a : Answer) (k' : Krnl m), call.run k = some (a, k') →
        (TracksResidency k' ↔ ReplacementSafe k call) := by
  have hinv : (∃ vma, OneArea k vma) ∧ Tracked k := by
    apply invariant_of_boot b hrun (tracked_boot b)
    intro k k' vma call a harea htracked hsafe hstep
    exact (tracked_step_iff htracked harea hstep).mpr hsafe
  obtain ⟨⟨vma, harea⟩, htracked⟩ := hinv
  refine ⟨tracksResidency_iff.mpr htracked, ?_, ?_⟩
  · intro vicpgn rest hfind
    have hres := (htracked.victim (findVictimPage_eq_some hfind)).1
    rw [views_pageKey, inRam_pageView] at hres
    simpa using hres
  · intro call a k' hcall
    rw [tracksResidency_iff]
    exact tracked_step_iff htracked harea (run_step harea hcall)

instance (k : Krnl m) (call : MemCall) : Decidable (AllocNotInRam k call) :=
  match call with
  | .alloc caller _ size =>
      have (vma : VmArea) : Decidable (∀ pf ∈ growPairs k vma caller size,
          (views k.mm.pgd (pageKey pf.1)).inRam = false) :=
        List.decidableBAll (fun pf : Addr × Addr =>
          (views k.mm.pgd (pageKey pf.1)).inRam = false) _
      List.decidableBAll (fun vma => ¬ Fits vma size →
        ∀ pf ∈ growPairs k vma caller size,
          (views k.mm.pgd (pageKey pf.1)).inRam = false) _
  | .free _ => instDecidableTrue
  | .read _ _ => instDecidableTrue
  | .write _ _ _ => instDecidableTrue

instance (k : Krnl m) (pgn : Addr) : Decidable (FaultServed k pgn) :=
  inferInstanceAs (Decidable (_ = false → _ ≠ [] → _ ≠ []))

instance (k : Krnl m) (call : MemCall) : Decidable (ReplacementSafe k call) :=
  have := Option.decidableForallMem
    (p := fun vaddr : BitVec 32 => FaultServed k (pagingPgn vaddr)) (call.vaddr k)
  inferInstanceAs (Decidable (_ ∧ _))

/-- Two pages are faulted in, one after the other. -/
theorem fifo_tracks_residency_two_faults :
    ∃ (es : List (MemCall × Answer)) (k : Krnl countingMalloc),
      Lts.Run (Stepped fun k call _ => ReplacementSafe k call) smallBoot.krnl es k ∧
      k.mm.fifoPgn = [2] ∧ TracksResidency k := by
  obtain ⟨es, k, hrun, hobs⟩ := Lts.record_observe
    (fun k call _ => ReplacementSafe k call)
    (fun (k : Krnl countingMalloc) call => call.run k) smallBoot.krnl
    [.alloc soleCaller 0 1024, .write 0 300 7, .write 0 600 8]
    (fun _ k => k.mm.fifoPgn) (v := [2]) (by decide +kernel)
  exact ⟨es, k, hrun, hobs, (fifo_tracks_residency smallBoot hrun).1⟩

/-- The second allocation maps page 1, which a write has faulted in: the page is on the
list twice. -/
theorem not_fifo_tracks_residency :
    ¬ ∀ (b : Boot) (es : List (MemCall × Answer)) (k : Krnl countingMalloc),
      Lts.Run (Stepped fun _ call _ => call.InRange) b.krnl es k → TracksResidency k := by
  intro hclaim
  obtain ⟨es, k, hrun, hobs⟩ := Lts.record_observe
    (fun (_ : Krnl countingMalloc) (call : MemCall) _ => call.InRange)
    (fun k call => call.run k) smallBoot.krnl
    [.alloc soleCaller 0 1024, .write 0 300 7, .alloc soleCaller 1 1]
    (fun _ k => (k.mm.fifoPgn.map pageKey).count (pageKey 1)) (v := 2) (by decide +kernel)
  have hcount := hclaim smallBoot es k hrun 1
  rw [hobs] at hcount
  split_ifs at hcount
  omega

end Memory
end Hdh
