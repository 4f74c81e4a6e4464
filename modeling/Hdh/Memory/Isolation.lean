import Hdh.Memory.Refinement

/-!
# Two processes on one memory

All processes share the `mm_struct` that `main` creates, and with it the region table:
an index of the table names the same region for all of them.  Two processes that use
different indices share the free list, the page table, the FIFO list and the frames.

Main results:

- Theorem `Refines.serves`: while frames and swap frames last, every access inside of
  its region succeeds.
- Theorem `isolation`: a process gets the answers that it gets alone, among the
  instructions of another process that uses other indices.
-/

namespace Hdh
namespace Memory

variable {m : Radix.Malloc Nat 0} {k k' : Krnl m} {vma : VmArea}

/-! ## Accesses succeed -/

/-- An allocation that extends the area finds the process and the frames. -/
def AllocResourced (k : Krnl m) : MemCall → Prop
  | .alloc caller _ size => ∀ vma ∈ k.mm.mmap, ¬ Fits vma size → CanExtend k caller size
  | _ => True

/-- No frame runs out: an allocation finds its frames, and an access that faults finds a
swap frame. -/
def Resourced (k : Krnl m) (call : MemCall) : Prop :=
  AllocResourced k call ∧
  ∀ vaddr ∈ call.vaddr k, pagePresent (pteGetEntry k.mm.pgd (pagingPgn vaddr)) = false →
    k.activeMswp.freeFpList ≠ []

/-- The instructions on which the pages behave like a flat memory, with enough frames. -/
def IsolationSafe (k : Krnl m) (call : MemCall) (k' : Krnl m) : Prop :=
  PagedSafe k call k' ∧ Resourced k call

/-- There is a page to evict as soon as memory has been handed out. -/
def Populated (k : Krnl m) (vma : VmArea) : Prop :=
  0 < vma.sbrk.toNat → k.mm.fifoPgn ≠ []

/-- A page access does not fail. -/
theorem RamOwned.page_some (h : RamOwned k) (hfifo : k.mm.fifoPgn ≠ []) {pgn : Addr}
    (hswap : pagePresent (pteGetEntry k.mm.pgd pgn) = false →
      k.activeMswp.freeFpList ≠ []) : ¬ PageStep k pgn none k' := by
  intro hpage
  cases hpage with
  | noVictim habsent hempty => exact hfifo hempty
  | @dropped vicpgn fifoPgn habsent hlast hfail =>
      rcases hfail with hnone | hvictim
      · exact hswap habsent hnone
      · obtain ⟨fpn, hres⟩ := h.fifo_resident vicpgn (by rw [hlast]; simp)
        rw [(views_eq_absent_iff _ _).mpr hvictim] at hres
        cases hres

/-- An access that the checks admit succeeds. -/
theorem Refines.not_failed {s : Flat.State Int Byte} (h : Refines k vma s)
    (hpop : Populated k vma) {call : MemCall} (hres : Resourced k call) {rgid : Int}
    {offset : Addr} {vaddr : BitVec 32} (htarget : call.target = some (rgid, offset))
    (haddr : accessAddr k 0 rgid offset = some (some vaddr)) :
    ¬ PageStep k (pagingPgn vaddr) none k' := by
  apply h.ram.page_some
  · obtain ⟨i, -, hlen, -⟩ := h.alloc.access haddr
    have hbounds := h.alloc.bounds i
    exact hpop (by omega)
  · exact hres.2 vaddr (MemCall.vaddr_eq htarget haddr)

/-- A flat memory need not serve an access outside of its region. -/
theorem serves_of_outside {s : Flat.State Int Byte} {call : MemCall} {rgid : Int}
    {offset : Addr} {a : Answer} (htarget : call.target = some (rgid, offset))
    (hout : s.size rgid ≤ offset.toNat) : s.Serves (flatEvent (call, a)) := by
  cases call with
  | alloc => cases htarget
  | free => cases htarget
  | read =>
      cases htarget
      exact fun hlt => absurd hlt (Nat.not_lt.mpr hout)
  | write =>
      cases htarget
      exact fun hlt => absurd hlt (Nat.not_lt.mpr hout)

/-- The index of an access in range is one of the table. -/
theorem MemCall.InRange.index {call : MemCall} (h : call.InRange) {rgid : Int}
    {offset : Addr} (htarget : call.target = some (rgid, offset)) :
    ∃ i, symIndex rgid = some i := by
  cases call with
  | alloc => cases htarget
  | free => cases htarget
  | read =>
      cases htarget
      exact symIndex_of_range h
  | write =>
      cases htarget
      exact symIndex_of_range h

/-- While frames and swap frames last, every access inside of its region succeeds. -/
theorem Refines.serves {s : Flat.State Int Byte} (h : Refines k vma s)
    (hpop : Populated k vma) {call : MemCall} {a : Answer} (hrange : call.InRange)
    (hres : Resourced k call) (hstep : MemStep k vma call a k') :
    s.Serves (flatEvent (call, a)) := by
  cases hstep with
  | hit => exact trivial
  | grow => exact trivial
  | freed => exact trivial
  | notFreed => exact trivial
  | read => exact fun _ => rfl
  | written => exact fun _ => rfl
  | failed htarget haddr hpage => exact absurd hpage (h.not_failed hpop hres htarget haddr)
  | rejected htarget haddr =>
      obtain ⟨i, hindex⟩ := hrange.index htarget
      apply serves_of_outside htarget
      rw [h.size _ i hindex]
      exact h.alloc.reject haddr hindex

/-- A page access that succeeds leaves a page to evict. -/
theorem Populated.page (h : Populated k vma) {pgn fpn : Addr}
    (hpage : PageStep k pgn (some fpn) k') : Populated k' vma := by
  cases hpage with
  | present => exact h
  | evicted => exact fun _ => List.cons_ne_nil _ _

/-- Every instruction leaves a page to evict. -/
theorem Populated.step {s : Flat.State Int Byte} (hpop : Populated k vma)
    (h : Refines k vma s) {call : MemCall} {a : Answer} (hrange : call.InRange)
    (hres : Resourced k call)
    (hstep : MemStep k vma call a k') {vma' : VmArea} (hvma' : k'.mm.mmap = [vma']) :
    Populated k' vma' := by
  cases hstep with
  | hit hindex hget =>
      obtain rfl := List.singleton_inj.mp hvma'
      exact hpop
  | @grow caller rgid size i freerg hindex hget =>
      intro _ hempty
      have hcan := hres.1 vma (by rw [h.alloc.area.mmap]; simp) (not_fits_of_none hget)
      rw [fifoPgn_grow, growPairs_fst k vma hcan, growCount_eq hrange.2.2] at hempty
      have hlen := congrArg List.length hempty
      simp [newPages] at hlen
  | freed hindex hlive =>
      obtain rfl := List.singleton_inj.mp hvma'
      exact hpop
  | notFreed =>
      obtain rfl := List.singleton_inj.mp (h.alloc.area.mmap.symm.trans hvma')
      exact hpop
  | rejected =>
      obtain rfl := List.singleton_inj.mp (h.alloc.area.mmap.symm.trans hvma')
      exact hpop
  | failed htarget haddr hpage => exact absurd hpage (h.not_failed hpop hres htarget haddr)
  | read haddr hpage =>
      have hmmap := hpage.frame.1.trans h.alloc.area.mmap
      obtain rfl := List.singleton_inj.mp (hmmap.symm.trans hvma')
      exact hpop.page hpage
  | written haddr hpage =>
      have hmmap := hpage.frame.1.trans h.alloc.area.mmap
      obtain rfl := List.singleton_inj.mp (hmmap.symm.trans hvma')
      have hpop' := hpop.page hpage
      exact hpop'

/-- An instruction answers 0 or -1. -/
theorem MemStep.stat {call : MemCall} {a : Answer} (hstep : MemStep k vma call a k') :
    a.stat = 0 ∨ a.stat = -1 := by
  cases hstep <;> simp

/-! ## Runs -/

/-- What a run with enough frames has made of the memory. -/
structure Served (es : List (MemCall × Answer)) (k : Krnl m) : Prop where
  small : k.SbrkSmall
  admits : Flat.Always Flat.State.Admits (es.map flatEvent)
  serves : Flat.Always Flat.State.Serves (es.map flatEvent)
  stat : ∀ e ∈ es, e.2.stat = 0 ∨ e.2.stat = -1
  refines : ∃ vma, Refines k vma (Flat.after (es.map flatEvent)) ∧ Populated k vma

/-- With enough frames, every access of a run has been served. -/
theorem served_of_run (b : Boot) (hstale : b.staleFreerg = [])
    (hmram : 2 * pageSz ≤ b.memramsz ∨ b.staleMram = []) {es : List (MemCall × Answer)}
    {k : Krnl m} (hrun : Lts.Run (Stepped IsolationSafe) b.krnl es k) : Served es k := by
  apply hrun.history
  · refine ⟨sbrkSmall_boot b, Flat.always_nil _, Flat.always_nil _, by simp, _,
      refines_boot b hstale hmram, ?_⟩
    intro hpos
    exact absurd hpos (Nat.lt_irrefl 0)
  · rintro es k ⟨call, a⟩ k' ⟨hsmall, hadmits, hserves, hstat, vma, hr, hpop⟩
      ⟨⟨hsafe, hres⟩, hcall⟩
    have hstep := run_step hr.alloc.area hcall
    obtain ⟨hgiven, vma', hr'⟩ := hr.step (hr.alloc.area.sbrk_lt hsmall) hsafe hstep
    have hserve := hr.serves hpop hsafe.1.1 hres hstep
    have hpop' := hpop.step hr hsafe.1.1 hres hstep hr'.alloc.area.mmap
    refine ⟨hsafe.1.2, ?_, ?_, ?_, vma', ?_, hpop'⟩
    · rw [List.map_append]
      exact Flat.always_snoc.mpr ⟨hadmits, hgiven⟩
    · rw [List.map_append]
      exact Flat.always_snoc.mpr ⟨hserves, hserve⟩
    · intro e he
      rcases List.mem_append.mp he with he | he
      · exact hstat e he
      · rw [List.mem_singleton.mp he]
        exact hstep.stat
    · rw [List.map_append, List.map_cons, List.map_nil, Flat.after_snoc]
      exact hr'

/-! ## Two processes -/

/-- The two processes. -/
inductive Proc
  | A
  | B
deriving DecidableEq

/-- One instruction of one of the processes. -/
def ProcStepped (ok : Krnl m → MemCall → Krnl m → Prop) (k : Krnl m)
    (e : (Proc × MemCall) × Answer) (k' : Krnl m) : Prop :=
  Stepped ok k (e.1.2, e.2) k'

/-- The instructions of one process, with their answers. -/
def eventsOf (p : Proc) (es : List ((Proc × MemCall) × Answer)) : List (MemCall × Answer) :=
  (es.filter fun e => e.1.1 = p).map fun e => (e.1.2, e.2)

/-- The instruction neither allocates nor frees the index. -/
def MemCall.Retains (rgid : Int) : MemCall → Prop
  | .alloc _ rgid' _ => rgid' ≠ rgid
  | .free rgid' => rgid' ≠ rgid
  | _ => True

/-- The reads that answer 0 are of bytes that have been written since the region was
allocated. -/
def Initialised (es : List (MemCall × Answer)) : Prop :=
  ∀ pre rgid offset a post, es = pre ++ (MemCall.read rgid offset, a) :: post →
    a.stat = 0 → ∃ before value w mid,
      pre = before ++ (MemCall.write rgid offset value, w) :: mid ∧ w.stat = 0 ∧
        ∀ e ∈ mid, e.1.Retains rgid

/-- An instruction that leaves the region keeps its bytes. -/
theorem keeps_of_retains {rgid : Int} {e : MemCall × Answer} (h : e.1.Retains rgid) :
    Flat.Keeps rgid (flatEvent e) := by
  obtain ⟨call, a⟩ := e
  cases call with
  | alloc caller rgid' size => exact h
  | free rgid' => exact h
  | read rgid' offset' => exact trivial
  | write rgid' offset' value => exact trivial

/-- The reads of initialised bytes are so on the flat memory. -/
theorem Initialised.flat {es : List (MemCall × Answer)} (h : Initialised es) :
    Flat.Always Flat.State.Initialised (es.map flatEvent) := by
  intro pre f post heq
  obtain ⟨pre', rest, rfl, rfl, hrest⟩ := List.map_eq_append_iff.mp heq
  obtain ⟨⟨call, a⟩, post', rfl, rfl, rfl⟩ := List.map_eq_cons_iff.mp hrest
  cases call with
  | alloc => exact trivial
  | free => exact trivial
  | write => exact trivial
  | read rgid offset =>
      intro hok
      obtain ⟨before, value, w, mid, rfl, hw, hmid⟩ :=
        h pre' rgid offset a post' rfl (of_decide_eq_true hok)
      rw [List.map_append, List.map_cons, List.append_cons]
      apply Flat.written_after
      · intro g hg
        obtain ⟨e, he, rfl⟩ := List.mem_map.mp hg
        exact keeps_of_retains (hmid e he)
      · rw [Flat.after_snoc]
        simp [Flat.State.next, flatEvent, MemCall.op, hw]

/-- The name of a flat operation is the region index. -/
theorem op_name (call : MemCall) : call.op.name = call.rgid := by
  cases call <;> rfl

theorem map_fst_flatEvent (es : List (MemCall × Answer)) :
    (es.map flatEvent).map Prod.fst = (es.map Prod.fst).map MemCall.op := by
  rw [List.map_map, List.map_map]
  rfl

/-- The answer of an instruction is known from the flat memory. -/
theorem answer_of_flat {es es' : List (MemCall × Answer)}
    (h : ∀ e ∈ es, e.2.stat = 0 ∨ e.2.stat = -1)
    (h' : ∀ e ∈ es', e.2.stat = 0 ∨ e.2.stat = -1)
    (heq : es.map flatEvent = es'.map flatEvent) :
    es.map Prod.snd = es'.map Prod.snd := by
  induction es generalizing es' with
  | nil =>
      obtain rfl : es' = [] := by simpa using heq.symm
      rfl
  | cons e es ih =>
      cases es' with
      | nil => simp at heq
      | cons e' es' =>
          simp only [List.map_cons, List.cons.injEq] at heq ⊢
          refine ⟨?_, ih (fun f hf => h f (List.mem_cons_of_mem _ hf))
            (fun f hf => h' f (List.mem_cons_of_mem _ hf)) heq.2⟩
          obtain ⟨call, stat, data⟩ := e
          obtain ⟨call', stat', data'⟩ := e'
          have hstat := h _ (List.mem_cons_self ..)
          have hstat' := h' _ (List.mem_cons_self ..)
          simp only [flatEvent, Prod.mk.injEq, Flat.Ans.mk.injEq, decide_eq_decide]
            at heq hstat hstat'
          obtain ⟨⟨-, hok, rfl⟩, -⟩ := heq
          obtain rfl : stat = stat' := by omega
          rfl

/-- Two processes that use different indices do not disturb each other: process A gets
the answers among the instructions of B that it gets alone, on as many frames as they
need, when it reads only what it has written. -/
theorem isolation (b : Boot) (hstale : b.staleFreerg = [])
    (hmram : 2 * pageSz ≤ b.memramsz ∨ b.staleMram = [])
    {es : List ((Proc × MemCall) × Answer)} {k : Krnl m}
    (hrun : Lts.Run (ProcStepped IsolationSafe) b.krnl es k)
    {alone : List (MemCall × Answer)} {k' : Krnl m}
    (halone : Lts.Run (Stepped IsolationSafe) b.krnl alone k')
    (hcalls : (eventsOf .A es).map Prod.fst = alone.map Prod.fst)
    (hdisjoint : ∀ e ∈ es, ∀ e' ∈ es, e.1.1 = .A → e'.1.1 = .B →
      e.1.2.rgid ≠ e'.1.2.rgid)
    (hinit : Initialised alone) :
    (eventsOf .A es).map Prod.snd = alone.map Prod.snd := by
  classical
  have hserved := served_of_run b hstale hmram
    (Lts.Run.map (fun e : (Proc × MemCall) × Answer => (e.1.2, e.2)) hrun)
  have hserved' := served_of_run b hstale hmram halone
  -- the names of A are the indices of its instructions
  let mine : Int → Prop := fun rgid => ∃ e ∈ es, e.1.1 = .A ∧ e.1.2.rgid = rgid
  have hmine : ∀ e ∈ es, mine e.1.2.rgid ↔ e.1.1 = .A := by
    intro e he
    constructor
    · rintro ⟨e', he', hA, hrgid⟩
      cases hproc : e.1.1 with
      | A => rfl
      | B => exact absurd hrgid (hdisjoint e' he' e he hA hproc)
    · intro hA
      exact ⟨e, he, hA, rfl⟩
  have hfilter : ((es.map fun e => (e.1.2, e.2)).map flatEvent).filter
      (fun f => mine f.1.name) = (eventsOf .A es).map flatEvent := by
    rw [eventsOf, List.map_map, List.map_map, List.filter_map]
    congr 1
    apply List.filter_congr
    intro e he
    simp only [Function.comp_apply, flatEvent, op_name, hmine e he]
  have hops : (((es.map fun e => (e.1.2, e.2)).map flatEvent).filter
      fun f => mine f.1.name).map Prod.fst = (alone.map flatEvent).map Prod.fst := by
    rw [hfilter, map_fst_flatEvent, map_fst_flatEvent, hcalls]
  have hflat := Flat.noninterference hserved.admits hserved.serves hserved'.admits
    hserved'.serves hinit.flat hops
  rw [hfilter] at hflat
  apply answer_of_flat _ hserved'.stat hflat.1
  intro e he
  obtain ⟨f, hf, rfl⟩ := List.mem_map.mp he
  exact hserved.stat _ (List.mem_map_of_mem (List.mem_of_mem_filter hf))

instance (k : Krnl m) (call : MemCall) : Decidable (AllocResourced k call) :=
  match call with
  | .alloc caller _ size =>
      List.decidableBAll (fun vma => ¬ Fits vma size → CanExtend k caller size) _
  | .free _ => instDecidableTrue
  | .read _ _ => instDecidableTrue
  | .write _ _ _ => instDecidableTrue

instance (k : Krnl m) (call : MemCall) : Decidable (Resourced k call) :=
  have : Decidable (∀ vaddr ∈ call.vaddr k,
      pagePresent (pteGetEntry k.mm.pgd (pagingPgn vaddr)) = false →
        k.activeMswp.freeFpList ≠ []) :=
    Option.decidableForallMem
      (p := fun vaddr : BitVec 32 =>
        pagePresent (pteGetEntry k.mm.pgd (pagingPgn vaddr)) = false →
          k.activeMswp.freeFpList ≠ []) _
  inferInstanceAs (Decidable (_ ∧ _))

instance (k k' : Krnl m) (call : MemCall) : Decidable (IsolationSafe k call k') :=
  inferInstanceAs (Decidable (_ ∧ _))

/-- The callers of the two processes, which are both in the queues. -/
def procCaller : Proc → Caller
  | .A => ⟨1, [1, 2], [], []⟩
  | .B => ⟨2, [1, 2], [], []⟩

/-- Two processes that write to regions of their own on one page. -/
theorem isolation_one_page :
    ∃ (es : List ((Proc × MemCall) × Answer)) (k : Krnl countingMalloc)
      (alone : List (MemCall × Answer)) (k' : Krnl countingMalloc),
      Lts.Run (ProcStepped IsolationSafe) smallBoot.krnl es k ∧
      Lts.Run (Stepped IsolationSafe) smallBoot.krnl alone k' ∧
      (eventsOf .B es).length = 2 ∧
      (eventsOf .A es).map Prod.snd = alone.map Prod.snd := by
  obtain ⟨es, k, hrun, hobs⟩ := Lts.record_observe
    (fun (k : Krnl countingMalloc) (c : Proc × MemCall) k' => IsolationSafe k c.2 k')
    (fun k c => c.2.run k) smallBoot.krnl
    [(.A, .alloc (procCaller .A) 0 16), (.B, .alloc (procCaller .B) 1 16),
      (.A, .write 0 3 7), (.B, .write 1 3 9), (.A, .read 0 3)]
    (fun es _ => es)
    (v := [((.A, .alloc (procCaller .A) 0 16), ⟨0, none⟩),
      ((.B, .alloc (procCaller .B) 1 16), ⟨0, none⟩), ((.A, .write 0 3 7), ⟨0, none⟩),
      ((.B, .write 1 3 9), ⟨0, none⟩), ((.A, .read 0 3), ⟨0, some 7⟩)])
    (by decide +kernel)
  obtain ⟨alone, k', halone, hobs'⟩ := Lts.record_observe
    IsolationSafe (fun (k : Krnl countingMalloc) call => call.run k) smallBoot.krnl
    [.alloc (procCaller .A) 0 16, .write 0 3 7, .read 0 3] (fun es _ => es)
    (v := [(.alloc (procCaller .A) 0 16, ⟨0, none⟩), (.write 0 3 7, ⟨0, none⟩),
      (.read 0 3, ⟨0, some 7⟩)]) (by decide +kernel)
  subst hobs hobs'
  refine ⟨_, k, _, k', hrun, halone, rfl, ?_⟩
  apply isolation smallBoot rfl (Or.inr rfl) hrun halone rfl (by decide)
  -- the only read comes third, after the write
  rintro pre rgid offset a post hsplit -
  match pre with
  | [] => simp at hsplit
  | [_] => simp at hsplit
  | [_, _] =>
      simp only [List.cons_append, List.nil_append, List.cons.injEq, Prod.mk.injEq,
        MemCall.read.injEq] at hsplit
      obtain ⟨rfl, rfl, ⟨⟨rfl, rfl⟩, -⟩, -⟩ := hsplit
      exact ⟨[(.alloc (procCaller .A) 0 16, ⟨0, none⟩)], 7, ⟨0, none⟩, [], rfl, rfl,
        by simp⟩
  | _ :: _ :: _ :: rest => simp at hsplit

/-- The instructions of processes with indices below 10, with enough frames. -/
def Ample (k : Krnl m) (call : MemCall) (k' : Krnl m) : Prop :=
  InBounds k call k' ∧ call.rgid < 10 ∧ Resourced k call

instance (k k' : Krnl m) (call : MemCall) : Decidable (Ample k call k') :=
  inferInstanceAs (Decidable (_ ∧ _ ∧ _))

/-- An `ALLOC` of another process replaces the region of the same index: process A has
written 7 and reads 0.  And with indices of its own, it reads the 7 that another process has
left in a region that it has freed, where it reads 0 alone. -/
theorem not_isolation :
    (¬ ∀ (b : Boot), b.staleFreerg = [] →
      (2 * pageSz ≤ b.memramsz ∨ b.staleMram = []) →
      ∀ (es : List ((Proc × MemCall) × Answer)) (k : Krnl countingMalloc),
        Lts.Run (ProcStepped Ample) b.krnl es k →
        ∀ (alone : List (MemCall × Answer)) (k' : Krnl countingMalloc),
          Lts.Run (Stepped Ample) b.krnl alone k' →
          (eventsOf .A es).map Prod.fst = alone.map Prod.fst →
            (eventsOf .A es).map Prod.snd = alone.map Prod.snd) ∧
    ¬ ∀ (b : Boot), b.staleFreerg = [] →
      (2 * pageSz ≤ b.memramsz ∨ b.staleMram = []) →
      ∀ (es : List ((Proc × MemCall) × Answer)) (k : Krnl countingMalloc),
        Lts.Run (ProcStepped Ample) b.krnl es k →
        (∀ e ∈ es, ∀ e' ∈ es, e.1.1 = .A → e'.1.1 = .B → e.1.2.rgid ≠ e'.1.2.rgid) →
        ∀ (alone : List (MemCall × Answer)) (k' : Krnl countingMalloc),
          Lts.Run (Stepped Ample) b.krnl alone k' →
          (eventsOf .A es).map Prod.fst = alone.map Prod.fst →
            (eventsOf .A es).map Prod.snd = alone.map Prod.snd := by
  constructor
  · intro hclaim
    obtain ⟨es, k, hrun, hobs⟩ := Lts.record_observe
      (fun (k : Krnl countingMalloc) (c : Proc × MemCall) k' => Ample k c.2 k')
      (fun k c => c.2.run k) smallBoot.krnl
      [(.A, .alloc (procCaller .A) 0 16), (.A, .write 0 3 7),
        (.B, .alloc (procCaller .B) 0 16), (.A, .read 0 3)]
      (fun es _ => es)
      (v := [((.A, .alloc (procCaller .A) 0 16), ⟨0, none⟩),
        ((.A, .write 0 3 7), ⟨0, none⟩), ((.B, .alloc (procCaller .B) 0 16), ⟨0, none⟩),
        ((.A, .read 0 3), ⟨0, some 0⟩)]) (by decide +kernel)
    obtain ⟨alone, k', halone, hobs'⟩ := Lts.record_observe
      Ample (fun (k : Krnl countingMalloc) call => call.run k) smallBoot.krnl
      [.alloc (procCaller .A) 0 16, .write 0 3 7, .read 0 3] (fun es _ => es)
      (v := [(.alloc (procCaller .A) 0 16, ⟨0, none⟩), (.write 0 3 7, ⟨0, none⟩),
        (.read 0 3, ⟨0, some 7⟩)]) (by decide +kernel)
    subst hobs hobs'
    have hsame := hclaim smallBoot rfl (Or.inr rfl) _ k hrun _ k' halone rfl
    exact absurd hsame (by decide)
  · intro hclaim
    obtain ⟨es, k, hrun, hobs⟩ := Lts.record_observe
      (fun (k : Krnl countingMalloc) (c : Proc × MemCall) k' => Ample k c.2 k')
      (fun k c => c.2.run k) smallBoot.krnl
      [(.B, .alloc (procCaller .B) 1 16), (.B, .write 1 3 7), (.B, .free 1),
        (.A, .alloc (procCaller .A) 0 16), (.A, .read 0 3)]
      (fun es _ => es)
      (v := [((.B, .alloc (procCaller .B) 1 16), ⟨0, none⟩), ((.B, .write 1 3 7), ⟨0, none⟩),
        ((.B, .free 1), ⟨0, none⟩), ((.A, .alloc (procCaller .A) 0 16), ⟨0, none⟩),
        ((.A, .read 0 3), ⟨0, some 7⟩)]) (by decide +kernel)
    obtain ⟨alone, k', halone, hobs'⟩ := Lts.record_observe
      Ample (fun (k : Krnl countingMalloc) call => call.run k) smallBoot.krnl
      [.alloc (procCaller .A) 0 16, .read 0 3] (fun es _ => es)
      (v := [(.alloc (procCaller .A) 0 16, ⟨0, none⟩), (.read 0 3, ⟨0, some 0⟩)])
      (by decide +kernel)
    subst hobs hobs'
    have hsame := hclaim smallBoot rfl (Or.inr rfl) _ k hrun (by decide) _ k' halone rfl
    exact absurd hsame (by decide)

end Memory
end Hdh
