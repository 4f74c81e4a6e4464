import Hdh.Library.Containers
import Hdh.Library.Runs
import Hdh.Memory.Mapping

/-!
# The free frames as a chain of nodes

`MEMPHY_format`, `MEMPHY_get_freefp`, `MEMPHY_put_freefp`, `alloc_pages_range` and the walk of
`vmap_page_range` over the nodes `struct framephy_struct` in memory.  What `malloc` answers
is part of a call, for each of its calls one address; the only thing that is asked of it is
that no node in use is there.

A frame that is taken from the free list comes with a node of its own: `alloc_pages_range`
frees the node on the free list and makes another one on the list of its caller, and its
rollback makes a new one on the free list for each that it frees.  `vm_map_ram` forgets its
list, so that the nodes of all frames that have been mapped stay in memory.

Main results:

- Theorem `Holds.rollback`: the rollback puts the frames back, one node for one node.
- Theorem `Holds.allocLoop`: the loop of `alloc_pages_range` does what it does to the lists.
- Theorem `frame_list_refines`: the nodes in use are those of the free list and those of the
  frames that have been mapped, and no call uses another one.
-/

namespace Hdh
namespace Memory

variable {A : Type} [DecidableEq A]

/-- The nodes `struct framephy_struct` in memory, each with its frame number and `fp_next`,
and `free_fp_list`. -/
structure FrameList (A : Type) where
  node : Linked.Heap A Addr
  freeFpList : Option A

namespace FrameList

/-- What a call ends with: `malloc` has no answer left or one at which a node is in use; or
a node is used that is not in use. -/
inductive Wrong
  | malloc
  | dangling
deriving DecidableEq

/-- `*fp`. -/
def load (s : FrameList A) (fp : A) : Except Wrong (Linked.Node A Addr) :=
  match s.node fp with
  | some nd => .ok nd
  | none => .error .dangling

/-- `newnode = malloc(..)`, and the assignments of its fields. -/
def fill (s : FrameList A) (newnode : A) (nd : Linked.Node A Addr) :
    Except Wrong (FrameList A) :=
  match s.node newnode with
  | none => .ok { s with node := Function.update s.node newnode (some nd) }
  | some _ => .error .malloc

/-- `free(fp)`. -/
def release (s : FrameList A) (fp : A) : Except Wrong (FrameList A) :=
  match s.node fp with
  | some _ => .ok { s with node := Function.update s.node fp none }
  | none => .error .dangling

/-- The loop of `MEMPHY_format`, whose last node is `fst`. -/
def formatLoop (s : FrameList A) : A → List Nat → List A → Except Wrong (FrameList A)
  | _, [], _ => .ok s
  | _, _ :: _, [] => .error .malloc
  | fst, iter :: iters, newfst :: as => do
      let s ← s.fill newfst ⟨BitVec.ofNat 64 iter, none⟩
      let nd ← s.load fst
      formatLoop { s with
        node := Function.update s.node fst (some { nd with next := some newfst }) }
        newfst iters as

/-- `MEMPHY_format`.  It does not assign the link of the first node nor, without a frame, the
head; `stale` is what is found there. -/
def format (maxsz : Nat) (stale : Option A) (as : List A) : Except Wrong (FrameList A) :=
  let numfp := maxsz / pageSz
  if numfp = 0 then .ok { node := fun _ => none, freeFpList := stale }
  else
    match as with
    | [] => .error .malloc
    | fst :: as => do
        let s ← fill { node := fun _ => none, freeFpList := some fst } fst ⟨0, stale⟩
        formatLoop s fst (List.range' 1 (numfp - 1)) as

/-- `MEMPHY_get_freefp`; the answer -1 is `none`. -/
def getFreefp (s : FrameList A) : Except Wrong (Option Addr × FrameList A) :=
  match s.freeFpList with
  | none => .ok (none, s)
  | some fp => do
      let nd ← s.load fp
      let s ← release { s with freeFpList := nd.next } fp
      return (some nd.value, s)

/-- `MEMPHY_put_freefp`. -/
def putFreefp (s : FrameList A) (newnode : A) (fpn : Addr) : Except Wrong (FrameList A) := do
  let s' ← s.fill newnode ⟨fpn, s.freeFpList⟩
  return { s' with freeFpList := some newnode }

/-- "Rollback any frames already obtained". -/
def rollback (s : FrameList A) : Option A → List A → Except Wrong (FrameList A)
  | none, _ => .ok s
  | some _, [] => .error .malloc
  | some temp, newnode :: as => do
      let nd ← s.load temp
      let s ← s.putFreefp newnode nd.value
      let nd ← s.load temp
      let s ← s.release temp
      rollback s nd.next as

/-- The loop of `alloc_pages_range`: the return code, `*frm_lst` and the memory. -/
def allocLoop (s : FrameList A) : Nat → Option A → List A →
    Except Wrong (Addr × Option A × FrameList A)
  | 0, frmLst, _ => .ok (0, frmLst, s)
  | n + 1, frmLst, as => do
      match ← s.getFreefp with
      | (some fpn, s) =>
          match as with
          | [] => .error .malloc
          | newfpStr :: as => do
              let s ← s.fill newfpStr ⟨fpn, frmLst⟩
              allocLoop s n (some newfpStr) as
      | (none, s) => do
          let s ← s.rollback frmLst as
          return (-1, none, s)

/-- The frame numbers that `vmap_page_range` reads from the list `frames`. -/
def framesOf (s : FrameList A) : Nat → Option A → Except Wrong (List Addr)
  | 0, _ => .ok []
  | _ + 1, none => .ok []
  | n + 1, some fpit => do
      let nd ← s.load fpit
      return nd.value :: (← framesOf s n nd.next)

/-- `vm_map_ram`: the return code, the frames that are mapped, and the memory without the
variable `frm_lst`. -/
def vmMapRam (s : FrameList A) (incpgnum : Int) (as : List A) :
    Except Wrong (Addr × List Addr × FrameList A) := do
  let (retAlloc, frmLst, s) ← s.allocLoop incpgnum.toNat none as
  if retAlloc < 0 ∧ retAlloc ≠ -3000 then return (-1, [], s)
  else if retAlloc = -3000 then return (-1, [], s)
  else return (0, ← s.framesOf incpgnum.toNat frmLst, s)

/-! ## The chains -/

/-- The memory holds the free frames, and the frames of a list of a caller; the nodes of the
frames that are lost are on neither of the two. -/
def Holds (s : FrameList A) (frmLst : Option A) (free frames lost : List Addr) : Prop :=
  ∃ l l' rest, Linked.Parted s.node s.freeFpList frmLst l l' rest ∧
    l.map Prod.snd = free ∧ l'.map Prod.snd = frames ∧ rest.map Prod.snd = lost

/-- `malloc` has answers for so many calls, at which no node is in use. -/
structure Supplies (s : FrameList A) (as : List A) (calls : Nat) : Prop where
  nodup : as.Nodup
  unused : ∀ a ∈ as, s.node a = none
  enough : calls ≤ as.length

omit [DecidableEq A] in
theorem Supplies.tail {s t : FrameList A} {newnode : A} {as : List A} {calls calls' : Nat}
    (h : s.Supplies (newnode :: as) calls)
    (hkeeps : ∀ a, a ≠ newnode → s.node a = none → t.node a = none)
    (hcalls : calls' + 1 ≤ calls) : t.Supplies as calls' := by
  obtain ⟨hnotmem, hnodup⟩ := List.nodup_cons.mp h.nodup
  refine ⟨hnodup, fun a ha => hkeeps a ?_ (h.unused a (List.mem_cons_of_mem _ ha)), ?_⟩
  · rintro rfl
    exact hnotmem ha
  · have henough := h.enough
    rw [List.length_cons] at henough
    omega

omit [DecidableEq A] in
theorem Supplies.head {s : FrameList A} {newnode : A} {as : List A} {calls : Nat}
    (h : s.Supplies (newnode :: as) calls) : s.node newnode = none :=
  h.unused newnode (List.mem_cons_self ..)

section Calls

variable {s : FrameList A} {frmLst : Option A} {free frames lost : List Addr} {fpn : Addr}

omit [DecidableEq A] in
/-- Nothing is held twice, and nothing else is in use. -/
theorem Holds.nodes (h : s.Holds frmLst free frames lost) :
    ∃ nodes : List A, nodes.Nodup ∧
      nodes.length = free.length + frames.length + lost.length ∧
      ∀ a, s.node a ≠ none ↔ a ∈ nodes := by
  obtain ⟨l, l', rest, hp, rfl, rfl, rfl⟩ := h
  refine
    ⟨(l ++ l' ++ rest).map Prod.fst, hp.nodup, by simp [Nat.add_assoc], fun a => ⟨hp.all a, ?_⟩⟩
  intro ha
  obtain ⟨av, hav, rfl⟩ := List.mem_map.mp ha
  exact hp.node_ne_none hav

/-- A frame comes off the free list, and its node is not in use any more. -/
theorem Holds.getFreefp (h : s.Holds frmLst free frames lost) :
    ∃ t, s.getFreefp = .ok (free.head?, t) ∧ t.Holds frmLst free.tail frames lost ∧
      ∀ a, s.node a = none → t.node a = none := by
  obtain ⟨l, l', rest, hp, rfl, hframes, hlost⟩ := h
  cases l with
  | nil =>
      have hnull : s.freeFpList = none := hp.fst
      exact ⟨s, by simp [FrameList.getFreefp, hnull], ⟨[], l', rest, hp, rfl, hframes, hlost⟩,
        fun _ hnone => hnone⟩
  | cons av l =>
      obtain ⟨fp, fpn⟩ := av
      obtain ⟨next, hfirst, hnode, hrest⟩ := hp.pop
      refine ⟨⟨Function.update s.node fp none, next⟩, ?_,
        ⟨l, l', rest, hrest, rfl, hframes, hlost⟩, fun _ => Linked.update_none_of_none⟩
      simp [FrameList.getFreefp, hfirst, load, release, hnode]
      rfl

/-- A frame goes on the free list with a new node. -/
theorem Holds.putFreefp (h : s.Holds frmLst free frames lost) (newnode : A) (fpn : Addr) :
    Lts.Comes (s.node newnode = none) .malloc (s.putFreefp newnode fpn) fun t =>
      t.Holds frmLst (fpn :: free) frames lost ∧
        ∀ a, a ≠ newnode → s.node a = none → t.node a = none := by
  obtain ⟨l, l', rest, hp, rfl, hframes, hlost⟩ := h
  unfold FrameList.putFreefp fill
  cases hnew : s.node newnode with
  | some nd => exact ⟨rfl, by simp⟩
  | none =>
      refine ⟨⟨(newnode, fpn) :: l, l', rest, hp.push hnew fpn, rfl, hframes, hlost⟩, ?_⟩
      intro a hne hnone
      exact (Function.update_of_ne hne _ _).trans hnone

/-- A frame goes on the list of the caller with a new node. -/
theorem Holds.fill (h : s.Holds frmLst free frames lost) (newnode : A) (fpn : Addr) :
    Lts.Comes (s.node newnode = none) .malloc (s.fill newnode ⟨fpn, frmLst⟩) fun t =>
      t.Holds (some newnode) free (fpn :: frames) lost ∧
        ∀ a, a ≠ newnode → s.node a = none → t.node a = none := by
  obtain ⟨l, l', rest, hp, hfree, rfl, hlost⟩ := h
  unfold FrameList.fill
  cases hnew : s.node newnode with
  | some nd => exact ⟨rfl, by simp⟩
  | none =>
      refine ⟨⟨l, (newnode, fpn) :: l', rest, (hp.swap.push hnew fpn).swap, hfree, rfl, hlost⟩,
        ?_⟩
      intro a hne hnone
      exact (Function.update_of_ne hne _ _).trans hnone

/-- The first node of the list of the caller: its frame, and the list without it. -/
theorem Holds.release (h : s.Holds frmLst free (fpn :: frames) lost) :
    ∃ temp next t, frmLst = some temp ∧ s.load temp = .ok ⟨fpn, next⟩ ∧
      s.release temp = .ok t ∧ t.Holds next free frames lost ∧
      ∀ a, s.node a = none → t.node a = none := by
  obtain ⟨l, l', rest, hp, hfree, hframes, hlost⟩ := h
  obtain ⟨⟨temp, value⟩, l', rfl, rfl, hrest⟩ := List.map_eq_cons_iff.mp hframes
  obtain ⟨next, hfirst, hnode, hparted⟩ := hp.swap.pop
  refine ⟨temp, next, ⟨Function.update s.node temp none, s.freeFpList⟩, hfirst,
    by simp [load, hnode], by simp [FrameList.release, hnode],
    ⟨l, l', rest, hparted.swap, hfree, hrest, hlost⟩, fun _ => Linked.update_none_of_none⟩

omit [DecidableEq A] in
/-- The caller forgets its list. -/
theorem Holds.forget (h : s.Holds frmLst free frames lost) :
    s.Holds none free [] (frames ++ lost) := by
  obtain ⟨l, l', rest, hp, hfree, rfl, rfl⟩ := h
  exact ⟨l, [], l' ++ rest, hp.forget, hfree, rfl, List.map_append ..⟩

/-- The rollback puts the frames back in their order, each with a new node for its old
one. -/
theorem Holds.rollback (h : s.Holds frmLst free frames lost) (as : List A) :
    Lts.Comes (s.Supplies as frames.length) .malloc (s.rollback frmLst as) fun t =>
      t.Holds none (frames.reverse ++ free) [] lost := by
  induction frames generalizing s frmLst free as with
  | nil =>
      obtain ⟨l, l', rest, hp, hfree, hframes, hlost⟩ := h
      obtain rfl := List.map_eq_nil_iff.mp hframes
      obtain rfl : frmLst = none := hp.snd
      cases as <;> exact ⟨l, [], rest, hp, hfree, rfl, hlost⟩
  | cons fpn frames ih =>
      obtain ⟨temp, -, -, rfl, -⟩ := h.release
      cases as with
      | nil =>
          refine ⟨rfl, fun hsupplies => ?_⟩
          have henough := hsupplies.enough
          simp at henough
      | cons newnode as =>
          obtain ⟨_, next, -, heq, hload, -⟩ := h.release
          cases heq
          rw [FrameList.rollback, hload]
          change Lts.Comes _ _ (s.putFreefp newnode fpn >>= _) _
          refine Lts.Comes.bind (P := fun t =>
            t.Holds (some temp) (fpn :: free) (fpn :: frames) lost ∧
              ∀ a, a ≠ newnode → s.node a = none → t.node a = none) ?_ ?_
          · exact (h.putFreefp newnode fpn).weaken Supplies.head fun _ ht => ht
          · rintro t ⟨ht, hkeeps⟩
            obtain ⟨_, next, u, heq, hload, hrelease, hu, hkeeps'⟩ := ht.release
            cases heq
            rw [hload]
            change Lts.Comes _ _ (t.release temp >>= _) _
            rw [hrelease]
            refine (ih hu as).weaken (fun hsupplies => hsupplies.tail (fun a hne hnone =>
              hkeeps' a (hkeeps a hne hnone)) (by simp)) fun v hv => ?_
            simpa using hv

omit [DecidableEq A] in
theorem Supplies.mono {t : FrameList A} {as : List A} {calls calls' : Nat}
    (h : s.Supplies as calls) (hkeeps : ∀ a, s.node a = none → t.node a = none)
    (hcalls : calls' ≤ calls) : t.Supplies as calls' :=
  ⟨h.nodup, fun a ha => hkeeps a (h.unused a ha), hcalls.trans h.enough⟩

/-- The loop of `alloc_pages_range` does to the chains what it does to the lists. -/
theorem Holds.allocLoop (h : s.Holds frmLst free frames lost) {mram : Memphy}
    (hfree : mram.freeFpList = free) (n : Nat) (as : List A) :
    Lts.Comes (s.Supplies as (2 * n + frames.length)) .malloc (s.allocLoop n frmLst as)
      fun r => r.1 = (Memory.allocLoop n frames mram).1 ∧
        r.2.2.Holds r.2.1 (Memory.allocLoop n frames mram).2.2.freeFpList
          (Memory.allocLoop n frames mram).2.1 lost := by
  induction n generalizing s frmLst free frames mram as with
  | zero =>
      subst hfree
      exact ⟨rfl, h⟩
  | succ n ih =>
      obtain ⟨t, hget, ht, hkeeps⟩ := h.getFreefp
      rw [FrameList.allocLoop, hget]
      cases free with
      | nil =>
          have hnone : mram.getFreefp = none := (Memphy.getFreefp_eq_none_iff _).mpr hfree
          simp only [Memory.allocLoop, hnone, foldl_putFreefp, hfree]
          change Lts.Comes _ _ (t.rollback frmLst as >>= _) _
          refine Lts.Comes.bind (P := fun u => u.Holds none (frames.reverse ++ []) [] lost) ?_ ?_
          · exact (ht.rollback as).weaken
              (fun hsupplies => hsupplies.mono hkeeps (by omega)) fun _ hu => hu
          · exact fun u hu => ⟨rfl, hu⟩
      | cons fpn free =>
          have hsome : mram.getFreefp = some (fpn, { mram with freeFpList := free }) := by
            rw [Memphy.getFreefp, hfree]
          simp only [Memory.allocLoop, hsome]
          cases as with
          | nil =>
              refine ⟨rfl, fun hsupplies => ?_⟩
              have henough := hsupplies.enough
              rw [List.length_nil] at henough
              omega
          | cons newfpStr as =>
              change Lts.Comes _ _ (t.fill newfpStr ⟨fpn, frmLst⟩ >>= _) _
              refine Lts.Comes.bind (P := fun u =>
                u.Holds (some newfpStr) free (fpn :: frames) lost ∧
                  ∀ a, a ≠ newfpStr → s.node a = none → u.node a = none) ?_ ?_
              · exact (ht.fill newfpStr fpn).weaken
                  (fun hsupplies => hkeeps _ hsupplies.head)
                  fun u hu => ⟨hu.1, fun a hne hnone => hu.2 a hne (hkeeps a hnone)⟩
              · rintro u ⟨hu, hkeeps'⟩
                refine (ih hu rfl as).weaken (fun hsupplies =>
                  hsupplies.tail hkeeps' ?_) fun _ hr => hr
                rw [List.length_cons]
                omega

omit [DecidableEq A] in
/-- `vmap_page_range` finds the frames of the list. -/
theorem Holds.framesOf (h : s.Holds frmLst free frames lost) (n : Nat) :
    s.framesOf n frmLst = .ok (frames.take n) := by
  obtain ⟨l, l', rest, hp, -, rfl, -⟩ := h
  have hchain := hp.snd
  clear hp
  induction n generalizing frmLst l' with
  | zero => simp [FrameList.framesOf]
  | succ n ih =>
      cases l' with
      | nil =>
          obtain rfl : frmLst = none := hchain
          simp [FrameList.framesOf]
      | cons av l' =>
          obtain ⟨rfl, next, hnode, hrest⟩ := hchain
          simp only [FrameList.framesOf, load, hnode, List.map_cons, List.take_succ_cons]
          change (s.framesOf n next >>= fun fpns => .ok (av.2 :: fpns)) = _
          rw [ih l' hrest]
          rfl

/-- `vm_map_ram` maps the frames that `alloc_pages_range` answers, and their nodes are lost. -/
theorem Holds.vmMapRam (h : s.Holds none free [] lost) {mram : Memphy}
    (hfree : mram.freeFpList = free) (incpgnum : Int) (as : List A) :
    Lts.Comes (s.Supplies as (2 * incpgnum.toNat)) .malloc (s.vmMapRam incpgnum as) fun r =>
      r.1 = 0 ∧ r.2.1 = (allocPagesRange mram incpgnum).2.1 ∧
        r.2.2.Holds none (allocPagesRange mram incpgnum).2.2.freeFpList []
          ((allocPagesRange mram incpgnum).2.1 ++ lost) := by
  unfold FrameList.vmMapRam
  refine Lts.Comes.bind (h.allocLoop hfree incpgnum.toNat as) ?_
  rintro ⟨ret, frmLst, t⟩ ⟨hret, ht⟩
  have hloop : Memory.allocLoop incpgnum.toNat [] mram = allocPagesRange mram incpgnum := rfl
  simp only [hloop] at hret ht
  have htake : (allocPagesRange mram incpgnum).2.1.take incpgnum.toNat =
      (allocPagesRange mram incpgnum).2.1 := by
    rw [allocPagesRange_eq]
    split_ifs
    · exact List.take_of_length_le (by simp)
    · exact List.take_nil
  have hcode : ret = 0 ∨ ret = -1 := by
    rw [hret, allocPagesRange_eq]
    split_ifs
    · exact Or.inl rfl
    · exact Or.inr rfl
  -- -1 is no error code here: it is not negative, and it is not -3000
  have hnot : ¬ (ret < 0 ∧ ret ≠ -3000) ∧ ret ≠ -3000 := by
    rcases hcode with rfl | rfl <;> decide
  simp only [hnot.1, hnot.2, if_false, ht.framesOf, htake]
  exact ⟨rfl, rfl, ht.forget⟩

end Calls

/-! ## The initialisation -/

section Format

variable {node : Linked.Heap A Addr} {p : Option A} {fst newfst : A} {v w : Addr}
  {next : Option A} {l : List (A × Addr)}

/-- The link of the last node need not have been assigned before the next one is made. -/
theorem owned_link (ho : Linked.Owned (Function.update node fst (some ⟨v, none⟩)) p
      (l ++ [(fst, v)])) (hne : newfst ≠ fst) (hfresh : node newfst = none) :
    Linked.Owned (Function.update (Function.update node newfst (some ⟨w, none⟩)) fst
      (some ⟨v, some newfst⟩)) p ((l ++ [(fst, v)]) ++ [(newfst, w)]) := by
  have hsnoc := ho.snoc ((Function.update_of_ne hne _ _).trans hfresh) w
  rwa [Function.update_comm hne.symm, Function.update_idem] at hsnoc

/-- One turn of the loop. -/
theorem formatLoop_cons (hnode : node fst = some ⟨v, next⟩) (hfresh : node newfst = none)
    (hne : newfst ≠ fst) (iter : Nat) (iters : List Nat) (as : List A) :
    formatLoop ⟨node, p⟩ fst (iter :: iters) (newfst :: as) =
      formatLoop ⟨Function.update (Function.update node newfst
        (some ⟨BitVec.ofNat 64 iter, none⟩)) fst (some ⟨v, some newfst⟩), p⟩
        newfst iters as := by
  have hload : load ⟨Function.update node newfst (some ⟨BitVec.ofNat 64 iter, none⟩), p⟩ fst =
      .ok ⟨v, next⟩ := by
    simp [load, Function.update_of_ne hne.symm, hnode]
  simp only [formatLoop, FrameList.fill, hfresh]
  change (load ⟨Function.update node newfst (some ⟨BitVec.ofNat 64 iter, none⟩), p⟩ fst >>=
    _) = _
  rw [hload]
  rfl

/-- The loop makes a node for each number. -/
theorem formatLoop_owned (iters : List Nat) (hnode : node fst = some ⟨v, next⟩)
    (ho : Linked.Owned (Function.update node fst (some ⟨v, none⟩)) p (l ++ [(fst, v)]))
    (hnext : iters = [] → next = none) (as : List A) :
    Lts.Comes (Supplies ⟨node, p⟩ as iters.length) .malloc (formatLoop ⟨node, p⟩ fst iters as)
      fun t => ∃ l', Linked.Owned t.node t.freeFpList l' ∧
        l'.map Prod.snd = l.map Prod.snd ++ v :: iters.map (BitVec.ofNat 64) := by
  induction iters generalizing node fst v next l as with
  | nil =>
      have hsame : Function.update node fst (some ⟨v, none⟩) = node := by
        rw [Function.update_eq_self_iff, hnode, hnext rfl]
      rw [hsame] at ho
      cases as <;> exact ⟨_, ho, by simp⟩
  | cons iter iters ih =>
      cases as with
      | nil =>
          refine ⟨rfl, fun hsupplies => ?_⟩
          have henough := hsupplies.enough
          simp at henough
      | cons newfst as =>
          cases hfresh : node newfst with
          | some nd =>
              simp only [formatLoop, FrameList.fill, hfresh]
              refine ⟨rfl, fun hsupplies => ?_⟩
              cases hfresh.symm.trans hsupplies.head
          | none =>
              have hne : newfst ≠ fst := by
                rintro rfl
                cases hfresh.symm.trans hnode
              rw [formatLoop_cons hnode hfresh hne]
              have howned := owned_link (w := BitVec.ofNat 64 iter) ho hne hfresh
              have hlast := howned.chain.last
              have hstep := ih hlast (by rwa [Function.update_eq_self_iff.mpr hlast.symm])
                (fun _ => rfl) as
              refine hstep.weaken (fun hsupplies => hsupplies.tail (fun a hnew hnone => ?_)
                (by simp)) ?_
              · have hold : a ≠ fst := by
                  rintro rfl
                  cases hnone.symm.trans hnode
                exact (Function.update_of_ne hold _ _).trans
                  ((Function.update_of_ne hnew _ _).trans hnone)
              · rintro t ⟨l', hl', hmap⟩
                exact ⟨l', hl', by simpa using hmap⟩

/-- A device of at least two frames has its frames on the free list, in order. -/
theorem format_holds {maxsz : Nat} (hmaxsz : 2 * pageSz ≤ maxsz) (stale : Option A)
    (as : List A) :
    Lts.Comes (Supplies ⟨fun _ => none, none⟩ as (maxsz / pageSz)) .malloc
      (format maxsz stale as) fun t => t.Holds none (Memphy.format maxsz []) [] [] := by
  have hmany : 2 ≤ maxsz / pageSz := by
    rw [Nat.le_div_iff_mul_le (by decide)]
    exact hmaxsz
  have hframes : Memphy.format maxsz [] =
      0 :: (List.range' 1 (maxsz / pageSz - 1)).map (BitVec.ofNat 64) := by
    rw [Memphy.format_exact (Or.inr rfl), List.range_eq_range',
      show maxsz / pageSz = (maxsz / pageSz - 1) + 1 by omega, List.range'_succ]
    rfl
  rw [hframes]
  simp only [FrameList.format, if_neg (show maxsz / pageSz ≠ 0 by omega)]
  cases as with
  | nil =>
      refine ⟨rfl, fun hsupplies => ?_⟩
      have henough := hsupplies.enough
      rw [List.length_nil] at henough
      omega
  | cons fst as =>
      have hnode : Function.update (fun _ => none : Linked.Heap A Addr) fst (some ⟨0, stale⟩) fst =
          some ⟨0, stale⟩ := Function.update_self ..
      have howned : Linked.Owned (Function.update (Function.update (fun _ => none) fst
          (some ⟨0, stale⟩)) fst (some ⟨0, none⟩)) (some fst) ([] ++ [(fst, (0 : Addr))]) := by
        rw [Function.update_idem]
        exact Linked.owned_empty.push rfl 0
      have hloop := formatLoop_owned (List.range' 1 (maxsz / pageSz - 1)) hnode howned
        (fun hnil => ?_) as
      · refine hloop.weaken (fun hsupplies => hsupplies.tail (fun a hne _ => ?_) ?_) ?_
        · simp [Function.update_of_ne hne]
        · rw [List.length_range']
          omega
        · rintro t ⟨l', hl', hmap⟩
          exact ⟨l', [], [], hl'.parted, by simpa using hmap, rfl, rfl⟩
      · have hlen := congrArg List.length hnil
        rw [List.length_range', List.length_nil] at hlen
        omega

end Format

end FrameList

/-! ## Runs -/

/-- The calls with what `malloc` answers and what they answer themselves: a
`MEMPHY_get_freefp`, a `MEMPHY_put_freefp`, and a `vm_map_ram` with the frames that it
maps. -/
inductive FpEvent (A : Type)
  | get (fpn : Option Addr)
  | put (newnode : A) (fpn : Addr)
  | mapRam (incpgnum : Int) (as : List A) (ret : Addr) (frames : List Addr)

/-- A call on the nodes in memory. -/
def FrameList.Step (s : FrameList A) : FpEvent A → FrameList A → Prop
  | .get fpn, t => s.getFreefp = .ok (fpn, t)
  | .put newnode fpn, t => s.putFreefp newnode fpn = .ok t
  | .mapRam incpgnum as ret frames, t => s.vmMapRam incpgnum as = .ok (ret, frames, t)

/-- A call on the device and the list of the frames that have been mapped. -/
def MemphyStep (st : Memphy × List Addr) : FpEvent A → Memphy × List Addr → Prop
  | .get fpn, t =>
      fpn = st.1.getFreefp.map Prod.fst ∧
        t = ((st.1.getFreefp.map Prod.snd).getD st.1, st.2)
  | .put _ fpn, t => t = (st.1.putFreefp fpn, st.2)
  | .mapRam incpgnum _ ret frames, t =>
      ret = 0 ∧ frames = (allocPagesRange st.1 incpgnum).2.1 ∧
        t = ((allocPagesRange st.1 incpgnum).2.2,
          (allocPagesRange st.1 incpgnum).2.1 ++ st.2)

/-- The memory holds the free frames of a device, and the nodes of the mapped ones. -/
def FrameList.Keeps (s : FrameList A) (st : Memphy × List Addr) : Prop :=
  s.Holds none st.1.freeFpList [] st.2

/-- A call on the nodes does what it does to the lists that they hold. -/
theorem step_memphyStep {s t : FrameList A} {e : FpEvent A} {st : Memphy × List Addr}
    (hstep : s.Step e t) (h : s.Keeps st) :
    ∃ st', MemphyStep st e st' ∧ t.Keeps st' := by
  cases e with
  | get fpn =>
      obtain ⟨u, hget, hu, -⟩ := h.getFreefp
      obtain ⟨rfl, rfl⟩ := Prod.mk.inj (Except.ok.inj (hget.symm.trans hstep))
      refine ⟨_, ⟨?_, rfl⟩, ?_⟩
      · cases hfree : st.1.freeFpList <;> simp [Memphy.getFreefp, hfree]
      · cases hfree : st.1.freeFpList <;> simpa [FrameList.Keeps, Memphy.getFreefp, hfree] using hu
  | put newnode fpn =>
      have hput := h.putFreefp newnode fpn
      rw [show s.putFreefp newnode fpn = .ok t from hstep] at hput
      exact ⟨_, rfl, hput.1⟩
  | mapRam incpgnum as ret frames =>
      have hmap := h.vmMapRam rfl incpgnum as
      rw [show s.vmMapRam incpgnum as = .ok (ret, frames, t) from hstep] at hmap
      obtain ⟨hret, hframes, ht⟩ := hmap
      exact ⟨_, ⟨hret, hframes, rfl⟩, ht⟩

/-- The free frames in memory.  From `MEMPHY_format` on, for a device of two frames or more,
and whatever frames are taken, put back and mapped, the calls answer what they answer on the
lists.  The nodes in use are as many as there are free frames and mapped ones: the nodes of
mapped frames are never freed, and no other node is lost.  No call ends with the use of a
node that has been freed; a call ends without an answer only when `malloc` has none. -/
theorem frame_list_refines {maxsz : Nat} (hmaxsz : 2 * pageSz ≤ maxsz) {stale : Option A}
    {as : List A} {s t : FrameList A} {es : List (FpEvent A)}
    (hformat : FrameList.format maxsz stale as = .ok s)
    (hrun : Lts.Run FrameList.Step s es t) :
    ∃ mp lost, Lts.Run MemphyStep (Memphy.initMemphy maxsz true [], []) es (mp, lost) ∧
      (∃ nodes : List A, nodes.Nodup ∧ nodes.length = mp.freeFpList.length + lost.length ∧
        ∀ a, t.node a ≠ none ↔ a ∈ nodes) ∧
      (∃ r, t.getFreefp = .ok r) ∧
      (∀ newnode fpn e, t.putFreefp newnode fpn = .error e →
        e = .malloc ∧ t.node newnode ≠ none) ∧
      ∀ incpgnum as e, t.vmMapRam incpgnum as = .error e →
        e = .malloc ∧ ¬ t.Supplies as (2 * incpgnum.toNat) := by
  have hinit := FrameList.format_holds hmaxsz stale as
  rw [hformat] at hinit
  obtain ⟨⟨mp, lost⟩, hmp, hend⟩ := hrun.forward
    (R := FrameList.Keeps) (a := (Memphy.initMemphy maxsz true [], [])) hinit
    fun _ _ _ _ => step_memphyStep
  refine ⟨mp, lost, hmp, ?_, ?_, ?_, ?_⟩
  · obtain ⟨nodes, hnodup, hlen, hall⟩ := hend.nodes
    exact ⟨nodes, hnodup, by simpa using hlen, hall⟩
  · obtain ⟨u, hget, -⟩ := hend.getFreefp
    exact ⟨_, hget⟩
  · intro newnode fpn e herror
    have hput := hend.putFreefp newnode fpn
    rw [herror] at hput
    exact hput
  · intro incpgnum as e herror
    have hmap := hend.vmMapRam rfl incpgnum as
    rw [herror] at hmap
    exact hmap

/-- Three frames, of which two are mapped; the request for two more is rolled back. -/
theorem frame_list_refines_three_frames :
    ∃ s t : FrameList Nat, FrameList.format 768 none [1, 2, 3] = .ok s ∧
      Lts.Run FrameList.Step s [.mapRam 2 [4, 5] 0 [1, 0], .mapRam 2 [6, 7] 0 []] t ∧
      ∃ (mp : Memphy) (lost : List Addr) (nodes : List Nat), nodes.Nodup ∧
        nodes.length = mp.freeFpList.length + lost.length ∧ ∀ a, t.node a ≠ none ↔ a ∈ nodes := by
  have hcalls : (do
      let s ← FrameList.format 768 none [1, 2, 3]
      let r ← s.vmMapRam 2 [4, 5]
      let r' ← r.2.2.vmMapRam 2 [6, 7]
      return (r.1, r.2.1, r'.1, r'.2.1)) =
        (.ok (0, [1, 0], 0, []) : Except FrameList.Wrong _) := by
    decide +kernel
  obtain ⟨s, hformat, hcalls⟩ := Lts.bind_eq_ok hcalls
  obtain ⟨⟨ret, frames, u⟩, hmap, hcalls⟩ := Lts.bind_eq_ok hcalls
  obtain ⟨⟨ret', frames', t⟩, hmap', hcalls⟩ := Lts.bind_eq_ok hcalls
  simp only [pure, Except.pure, Except.ok.injEq, Prod.mk.injEq] at hcalls
  obtain ⟨rfl, rfl, rfl, rfl⟩ := hcalls
  have hrun : Lts.Run FrameList.Step s
      [.mapRam 2 [4, 5] 0 [1, 0], .mapRam 2 [6, 7] 0 []] t :=
    (Lts.Run.nil.snoc hmap).snoc hmap'
  obtain ⟨mp, lost, -, ⟨nodes, hnodes⟩, -⟩ := frame_list_refines (by decide) hformat hrun
  exact ⟨s, t, hformat, hrun, mp, lost, nodes, hnodes⟩

end Memory
end Hdh
