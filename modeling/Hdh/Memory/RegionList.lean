import Hdh.Library.Containers
import Hdh.Library.Runs
import Hdh.Memory.Region

/-!
# The free region list as a chain of nodes

`enlist_vm_freerg_list` and `get_free_vmrg_area` over the nodes in memory, with the part of
`init_mm` and `__free` that makes the nodes.  As for the page list, an address is what
`malloc` answers, and all that is assumed of it is that no node in use is there.

`get_free_vmrg_area` has no pointer to the node before the one that it uses up.  To take a
node off the list it copies the next node into it and frees the next node; the last node
stays, as a region without addresses.

Main results:

- Theorem `fitLoop_of_fit`: the loop stops at the first node whose region is large enough.
- Theorem `Holds.useRegion`: the copy of the next node takes the region off the list.
- Theorem `Holds.getFreeVmrgArea`: on nodes that hold a list, the function does what it does
  to the list.
- Theorem `region_list_refines`: no node is lost, freed twice or used after it has been
  freed, whatever the calls.
-/

namespace Hdh
namespace Memory

variable {A : Type} [DecidableEq A]

/-- The nodes `struct vm_rg_struct` in memory, each with its region and `rg_next`, and
`vm_freerg_list`. -/
structure RegionList (A : Type) where
  node : Linked.Heap A VmRg
  vmFreergList : Option A

namespace RegionList

/-- `init_vm_rg`, where `rgnode` is what `malloc` answers; `__free` does the same. -/
def initVmRg (s : RegionList A) (rgnode : A) (rg : VmRg) : RegionList A :=
  { s with node := Function.update s.node rgnode (some { value := rg, next := none }) }

/-- `enlist_vm_rg_node`. -/
def enlistVmRgNode (s : RegionList A) (rgnode : A) : Option (RegionList A) :=
  (s.node rgnode).map fun nd =>
    { node := Function.update s.node rgnode (some { nd with next := s.vmFreergList })
      vmFreergList := some rgnode }

/-- `enlist_vm_freerg_list`.  An empty list leaves `rg_next` of the new node as it is. -/
def enlistVmFreergList (s : RegionList A) (rgElmt : A) : Option (Int × RegionList A) :=
  (s.node rgElmt).map fun nd =>
    if nd.value.rgEnd ≤ nd.value.rgStart then (-1, s)
    else
      match s.vmFreergList with
      | some rgNode =>
          (0, { node := Function.update s.node rgElmt (some { nd with next := some rgNode })
                vmFreergList := some rgElmt })
      | none => (0, { s with vmFreergList := some rgElmt })

/-- What `init_mm` does to the list of its area, which it takes for NULL. -/
def initMm (firstRg : A) : Option (RegionList A) :=
  (initVmRg { node := fun _ => none, vmFreergList := none } firstRg ⟨0, 0⟩).enlistVmRgNode
    firstRg

/-- What `__free` does to the list, for the region `rgnode` of the table; `freergNode` is
what `malloc` answers. -/
def free (s : RegionList A) (freergNode : A) (rgnode : VmRg) :
    Option (Int × RegionList A) :=
  if rgnode.rgEnd ≤ rgnode.rgStart then some (-1, s)
  else
    ((s.initVmRg freergNode rgnode).enlistVmFreergList freergNode).map fun r => (0, r.2)

/-- "Update left space in chosen region": `rgit`, whose contents are `nd`, is cut, gives way
to the next node, or stays without space. -/
def useRegion (size : Addr) (node : Linked.Heap A VmRg) (rgit : A)
    (nd : Linked.Node A VmRg) : Option (Linked.Heap A VmRg) :=
  if nd.value.rgStart + size < nd.value.rgEnd then
    some (Function.update node rgit
      (some { nd with value := ⟨nd.value.rgStart + size, nd.value.rgEnd⟩ }))
  else
    match nd.next with
    | some nextrg =>
        (node nextrg).map fun nextnd =>
          Function.update (Function.update node rgit (some nextnd)) nextrg none
    | none =>
        some (Function.update node rgit
          (some { value := ⟨nd.value.rgEnd, nd.value.rgEnd⟩, next := none }))

/-- `while (rgit != NULL)`, for at most `fuel` turns: the region that is assigned to
`*newrg`, if any, and the nodes. -/
def fitLoop (size : Addr) (node : Linked.Heap A VmRg) :
    Nat → A → Option (Option VmRg × Linked.Heap A VmRg)
  | 0, _ => none
  | fuel + 1, rgit =>
      (node rgit).bind fun nd =>
        if nd.value.rgStart + size ≤ nd.value.rgEnd then
          (useRegion size node rgit nd).map fun node =>
            (some ⟨nd.value.rgStart, nd.value.rgStart + size⟩, node)
        else
          match nd.next with
          | none => some (none, node)
          | some next => fitLoop size node fuel next

/-- `get_free_vmrg_area`: the return code, `*newrg` if it is assigned, and the memory. -/
def getFreeVmrgArea (fuel : Nat) (s : RegionList A) (size : BitVec 32) :
    Option (Int × Option VmRg × RegionList A) :=
  match s.vmFreergList with
  | none => some (-1, none, s)
  | some rgit =>
      (fitLoop (size.signExtend 64) s.node fuel rgit).map fun r =>
        let newrg := r.1.getD ⟨-1, -1⟩
        (if newrg.rgStart = -1 then -1 else 0, some newrg, { s with node := r.2 })

/-! ## The loop -/

section Loop

variable {size : Addr} {node : Linked.Heap A VmRg} {p : A} {l post : List (A × VmRg)}

/-- The loop passes the regions that are too small. -/
theorem fitLoop_of_none (hl : Linked.Chain node (some p) l)
    (hsmall : ∀ rg ∈ l.map Prod.snd, ¬ rg.rgStart + size ≤ rg.rgEnd) (fuel : Nat) :
    fitLoop size node fuel p = if l.length ≤ fuel then some (none, node) else none := by
  induction l generalizing p fuel with
  | nil => cases (show some p = none from hl)
  | cons arg l ih =>
      obtain ⟨a, rg⟩ := arg
      obtain ⟨hp, next, hnode, hrest⟩ := hl
      cases hp
      rw [List.map_cons, List.forall_mem_cons] at hsmall
      cases fuel with
      | zero => rfl
      | succ fuel =>
          rw [fitLoop, hnode, Option.bind_some, if_neg hsmall.1, List.length_cons]
          cases l with
          | nil =>
              obtain rfl : next = none := hrest
              rw [if_pos (by simp)]
          | cons brg l =>
              obtain rfl := hrest.1
              simp only [ih hrest hsmall.2, Nat.add_le_add_iff_right]

/-- The loop stops at the first node whose region is large enough. -/
theorem fitLoop_of_fit {a : A} {rg : VmRg} {nd : Linked.Node A VmRg}
    (hl : Linked.Chain node (some p) (l ++ (a, rg) :: post))
    (hsmall : ∀ rg ∈ l.map Prod.snd, ¬ rg.rgStart + size ≤ rg.rgEnd)
    (hfit : rg.rgStart + size ≤ rg.rgEnd) (hnd : node a = some nd) (fuel : Nat) :
    fitLoop size node fuel p =
      if l.length < fuel then
        (useRegion size node a nd).map fun node => (some ⟨rg.rgStart, rg.rgStart + size⟩, node)
      else none := by
  induction l generalizing p fuel with
  | nil =>
      obtain ⟨hp, next, hnode, -⟩ := hl
      cases hp
      cases hnd.symm.trans hnode
      cases fuel with
      | zero => rfl
      | succ fuel =>
          rw [fitLoop, hnode, Option.bind_some, if_pos hfit, List.length_nil,
            if_pos (Nat.succ_pos fuel)]
  | cons brg l ih =>
      obtain ⟨b, brg⟩ := brg
      obtain ⟨hp, next, hnode, hrest⟩ := hl
      cases hp
      rw [List.map_cons, List.forall_mem_cons] at hsmall
      -- the node that fits is still ahead, so that `rg_next` is not NULL
      obtain ⟨c, rfl⟩ : ∃ c, next = some c := by
        cases l with
        | nil => exact ⟨_, hrest.1⟩
        | cons crg l => exact ⟨_, hrest.1⟩
      cases fuel with
      | zero => rfl
      | succ fuel =>
          rw [fitLoop, hnode, Option.bind_some, if_neg hsmall.1, List.length_cons]
          simp only [ih hrest hsmall.2, Nat.add_lt_add_iff_right]

end Loop

/-! ## The list -/

/-- The regions of the nodes on the list, from the first one on; there are no other nodes. -/
def Holds (s : RegionList A) (freerg : List VmRg) : Prop :=
  ∃ nodes : List (A × VmRg), Linked.Owned s.node s.vmFreergList nodes ∧
    nodes.map Prod.snd = freerg

variable {s t : RegionList A} {freerg : List VmRg}

theorem initMm_holds (firstRg : A) : ∃ s, initMm firstRg = some s ∧ s.Holds [⟨0, 0⟩] := by
  refine ⟨{ node := Function.update (fun _ => none) firstRg (some ⟨⟨0, 0⟩, none⟩)
            vmFreergList := some firstRg }, ?_, [(firstRg, ⟨0, 0⟩)], ?_, rfl⟩
  · simp [initMm, initVmRg, enlistVmRgNode]
  · exact Linked.owned_empty.push rfl _

/-- A new node becomes the first one. -/
theorem Holds.enlist (h : s.Holds freerg) {rgElmt : A} (hfresh : s.node rgElmt = none)
    {rg : VmRg} (hrg : ¬ rg.rgEnd ≤ rg.rgStart) :
    ∃ t : RegionList A, t.Holds (rg :: freerg) ∧
      (s.initVmRg rgElmt rg).enlistVmFreergList rgElmt = some (0, t) := by
  obtain ⟨nodes, howned, rfl⟩ := h
  refine ⟨{ node := Function.update s.node rgElmt (some ⟨rg, s.vmFreergList⟩)
            vmFreergList := some rgElmt }, ⟨_, howned.push hfresh rg, rfl⟩, ?_⟩
  cases hlist : s.vmFreergList with
  | none => simp [enlistVmFreergList, initVmRg, hrg, hlist]
  | some rgNode => simp [enlistVmFreergList, initVmRg, hrg, hlist]

/-- A node is used: its region is cut, or goes off the list, or stays without addresses. -/
theorem useRegion_owned (size : Addr) {node : Linked.Heap A VmRg} {p : Option A} {a : A}
    {rg : VmRg} {l post : List (A × VmRg)} (ho : Linked.Owned node p (l ++ (a, rg) :: post)) :
    ∃ nd node' nodes, node a = some nd ∧ nd.value = rg ∧
      useRegion size node a nd = some node' ∧ Linked.Owned node' p nodes ∧
      nodes.map Prod.snd = l.map Prod.snd ++ leftOver size rg (post.map Prod.snd) ++
        post.map Prod.snd := by
  obtain ⟨next, hnode, hlast, hset⟩ := ho.setValue
  refine ⟨⟨rg, next⟩, ?_⟩
  by_cases hmore : rg.rgStart + size < rg.rgEnd
  · refine ⟨_, _, hnode, rfl, ?_, hset ⟨rg.rgStart + size, rg.rgEnd⟩, ?_⟩
    · rw [useRegion, if_pos hmore]
    · simp [leftOver, hmore]
  · cases post with
    | nil =>
        obtain rfl := hlast rfl
        refine ⟨_, _, hnode, rfl, ?_, hset ⟨rg.rgEnd, rg.rgEnd⟩, ?_⟩
        · rw [useRegion, if_neg hmore]
        · simp [leftOver, hmore]
    | cons brg post =>
        obtain ⟨next', hnode', hnext, howned⟩ := ho.absorb
        cases hnode.symm.trans hnode'
        refine ⟨_, _, hnode, rfl, ?_, howned, ?_⟩
        · rw [useRegion, if_neg hmore]
          simp only [hnext, Option.map_some]
        · simp [leftOver, hmore]

/-- The loop on the nodes does what it does to the list, in as many turns as there are
regions. -/
theorem fitLoop_owned (size : Addr) {node : Linked.Heap A VmRg} {p : A}
    {nodes : List (A × VmRg)} (ho : Linked.Owned node (some p) nodes) :
    ∃ newrg node' nodes', Linked.Owned node' (some p) nodes' ∧
      (match Memory.fitLoop size (nodes.map Prod.snd) with
        | some r => newrg = some r.1 ∧ nodes'.map Prod.snd = r.2
        | none => newrg = none ∧ nodes'.map Prod.snd = nodes.map Prod.snd) ∧
      (∀ fuel, nodes.length ≤ fuel → fitLoop size node fuel p = some (newrg, node')) ∧
      ∀ fuel r, fitLoop size node fuel p = some r → r = (newrg, node') := by
  cases hfit : Memory.fitLoop size (nodes.map Prod.snd) with
  | none =>
      have hloop := fitLoop_of_none ho.chain (fitLoop_eq_none_iff.mp hfit)
      refine ⟨none, node, nodes, ho, ⟨rfl, rfl⟩, ?_, ?_⟩
      · intro fuel hfuel
        rw [hloop, if_pos hfuel]
      · intro fuel r hr
        rw [hloop] at hr
        split_ifs at hr
        exact (Option.some_inj.mp hr).symm
  | some r =>
      obtain ⟨newrg, freerg⟩ := r
      obtain ⟨pre, rg, post, hsplit, hsmall, hle, rfl, rfl⟩ := fitLoop_split hfit
      obtain ⟨l, rest, rfl, rfl, hrest⟩ := List.map_eq_append_iff.mp hsplit
      obtain ⟨⟨a, rg'⟩, post, rfl, rfl, rfl⟩ := List.map_eq_cons_iff.mp hrest
      obtain ⟨nd, node', nodes', hnd, -, huse, howned, hmap⟩ := useRegion_owned size ho
      have hloop := fitLoop_of_fit ho.chain hsmall hle hnd
      rw [huse, Option.map_some] at hloop
      refine ⟨_, node', nodes', howned, ⟨rfl, hmap⟩, ?_, ?_⟩
      · intro fuel hfuel
        rw [List.length_append, List.length_cons] at hfuel
        rw [hloop, if_pos (by omega)]
      · intro fuel r hr
        rw [hloop] at hr
        split_ifs at hr
        exact (Option.some_inj.mp hr).symm

/-- What `get_free_vmrg_area` answers, by what it does to the list. -/
def Answers (got : Option VmRg) (ret : Int) (newrg : Option VmRg) : Prop :=
  match got with
  | some rg => ret = 0 ∧ newrg = some rg
  | none => ret = -1

/-- What `get_free_vmrg_area` makes of the region that its loop has found, or not. -/
theorem answers_of_fit {size : BitVec 32} {freerg l : List VmRg} {got : Option VmRg}
    (hne : freerg ≠ [])
    (hgot : match Memory.fitLoop (size.signExtend 64) freerg with
      | some r => got = some r.1 ∧ l = r.2
      | none => got = none ∧ l = freerg) :
    Answers (Memory.getFreeVmrgArea freerg size).1
        (if (got.getD ⟨-1, -1⟩).rgStart = -1 then -1 else 0) (some (got.getD ⟨-1, -1⟩)) ∧
      (Memory.getFreeVmrgArea freerg size).2 = l := by
  unfold Memory.getFreeVmrgArea
  split
  · exact absurd rfl hne
  · cases hfit : Memory.fitLoop (size.signExtend 64) _ with
    | none =>
        rw [hfit] at hgot
        obtain ⟨rfl, rfl⟩ := hgot
        exact ⟨rfl, rfl⟩
    | some r =>
        rw [hfit] at hgot
        obtain ⟨rfl, rfl⟩ := hgot
        simp only [Option.getD_some]
        split_ifs with hlast
        · exact ⟨rfl, rfl⟩
        · exact ⟨⟨rfl, rfl⟩, rfl⟩

/-- On nodes that hold a list, `get_free_vmrg_area` does what it does to the list. -/
theorem Holds.getFreeVmrgArea (h : s.Holds freerg) (size : BitVec 32) :
    ∃ ret newrg t, Answers (Memory.getFreeVmrgArea freerg size).1 ret newrg ∧
      Holds t (Memory.getFreeVmrgArea freerg size).2 ∧
      (∀ fuel, freerg.length ≤ fuel →
        s.getFreeVmrgArea fuel size = some (ret, newrg, t)) ∧
      ∀ fuel r, s.getFreeVmrgArea fuel size = some r → r = (ret, newrg, t) := by
  obtain ⟨nodes, howned, rfl⟩ := h
  cases hlist : s.vmFreergList with
  | none =>
      rw [hlist] at howned
      obtain rfl := Linked.chain_none.mp howned.chain
      refine ⟨-1, none, s, rfl, ⟨[], hlist ▸ howned, rfl⟩, ?_, ?_⟩
      · intro fuel _
        rw [RegionList.getFreeVmrgArea, hlist]
      · intro fuel r hr
        rw [RegionList.getFreeVmrgArea, hlist] at hr
        exact (Option.some_inj.mp hr).symm
  | some rgit =>
      rw [hlist] at howned
      obtain ⟨got, node', nodes', howned', hgot, hruns, honly⟩ :=
        fitLoop_owned (size.signExtend 64) howned
      have hne : nodes.map Prod.snd ≠ [] := by
        rintro hnil
        rw [List.map_eq_nil_iff.mp hnil] at howned
        cases (show some rgit = none from howned.chain)
      have hspec := answers_of_fit hne hgot
      refine ⟨_, _, { node := node', vmFreergList := some rgit }, hspec.1,
        ⟨nodes', howned', hspec.2.symm⟩, ?_, ?_⟩
      · intro fuel hfuel
        rw [List.length_map] at hfuel
        simp only [RegionList.getFreeVmrgArea, hlist, hruns fuel hfuel, Option.map_some]
      · intro fuel r hr
        simp only [RegionList.getFreeVmrgArea, hlist, Option.map_eq_some_iff] at hr
        obtain ⟨r', hr', rfl⟩ := hr
        cases honly fuel r' hr'
        rfl

end RegionList

/-! ## Runs -/

/-- The calls: a `__free` of a region, with what `malloc` answers and the return code, and a
`get_free_vmrg_area` with the return code and `*newrg`, if it is assigned. -/
inductive RgEvent (A : Type)
  | free (freergNode : A) (rgnode : VmRg) (ret : Int)
  | getFree (size : BitVec 32) (ret : Int) (newrg : Option VmRg)

/-- A call on the nodes in memory; `malloc` answers no node in use. -/
def RegionList.Step (s : RegionList A) : RgEvent A → RegionList A → Prop
  | .free freergNode rgnode ret, t =>
      s.node freergNode = none ∧ s.free freergNode rgnode = some (ret, t)
  | .getFree size ret newrg, t => ∃ fuel, s.getFreeVmrgArea fuel size = some (ret, newrg, t)

/-- A call on the list of regions. -/
def FreergStep (freerg : List VmRg) : RgEvent A → List VmRg → Prop
  | .free _ rgnode ret, rest =>
      if rgnode.rgEnd ≤ rgnode.rgStart then ret = -1 ∧ rest = freerg
      else ret = 0 ∧ rest = (enlistVmFreergList freerg rgnode).2
  | .getFree size ret newrg, rest =>
      RegionList.Answers (getFreeVmrgArea freerg size).1 ret newrg ∧
        rest = (getFreeVmrgArea freerg size).2

/-- A call on the nodes does what it does to the list that they hold. -/
theorem step_freergStep {s t : RegionList A} {e : RgEvent A} {freerg : List VmRg}
    (hstep : s.Step e t) (h : s.Holds freerg) :
    ∃ rest, FreergStep freerg e rest ∧ t.Holds rest := by
  cases e with
  | free freergNode rgnode ret =>
      obtain ⟨hfresh, heq⟩ := hstep
      unfold RegionList.free at heq
      by_cases hrg : rgnode.rgEnd ≤ rgnode.rgStart
      · rw [if_pos hrg] at heq
        cases heq
        exact ⟨freerg, by simp [FreergStep, hrg], h⟩
      · obtain ⟨u, hu, hlist⟩ := h.enlist hfresh hrg
        rw [if_neg hrg, hlist] at heq
        cases heq
        exact ⟨rgnode :: freerg, by simp [FreergStep, enlistVmFreergList, hrg], hu⟩
  | getFree size ret newrg =>
      obtain ⟨fuel, heq⟩ := hstep
      obtain ⟨ret', newrg', u, hanswers, hu, -, honly⟩ := h.getFreeVmrgArea size
      cases honly fuel _ heq
      exact ⟨_, ⟨hanswers, rfl⟩, hu⟩

/-- The free region list in memory.  From `init_mm` on, and whatever is freed and asked for,
the calls answer what they answer on the list of regions, and this is the list that
`vm_freerg_list` leads to.  The nodes in use are those on the list, as many as there are
regions: none is lost, and none is freed twice.  Every call is defined, so that no node is
used that has been freed, and the loop ends within as many turns as there are regions. -/
theorem region_list_refines {firstRg : A} {s t : RegionList A} {es : List (RgEvent A)}
    (hinit : RegionList.initMm firstRg = some s) (hrun : Lts.Run RegionList.Step s es t) :
    ∃ freerg, Lts.Run FreergStep [⟨0, 0⟩] es freerg ∧ t.Holds freerg ∧
      (∃ nodes : List A, nodes.Nodup ∧ nodes.length = freerg.length ∧
        ∀ a, t.node a ≠ none ↔ a ∈ nodes) ∧
      (∀ a rgnode, t.node a = none → (t.free a rgnode).isSome) ∧
      ∀ fuel size, freerg.length ≤ fuel → (t.getFreeVmrgArea fuel size).isSome := by
  obtain ⟨s', hs', hholds⟩ := RegionList.initMm_holds firstRg
  cases hs'.symm.trans hinit
  obtain ⟨freerg, hlist, hend⟩ := hrun.forward hholds fun _ _ _ _ => step_freergStep
  refine ⟨freerg, hlist, hend, ?_, ?_, ?_⟩
  · obtain ⟨nodes, howned, rfl⟩ := hend
    refine ⟨nodes.map Prod.fst, Linked.chain_nodup howned.chain, by simp, fun a => ?_⟩
    refine ⟨howned.all a, fun ha => ?_⟩
    obtain ⟨av, hav, rfl⟩ := List.mem_map.mp ha
    exact howned.chain.node_ne_none hav
  · intro a rgnode hfresh
    unfold RegionList.free
    split_ifs with hrg
    · rfl
    · obtain ⟨u, -, hu⟩ := hend.enlist hfresh hrg
      rw [hu]
      rfl
  · intro fuel size hfuel
    obtain ⟨ret, newrg, u, -, -, hruns, -⟩ := hend.getFreeVmrgArea size
    rw [hruns fuel hfuel]
    rfl

/-- A region that is freed and used up again: its node takes the place of the one of
`init_mm`, at whose address the next node comes. -/
theorem region_list_refines_three_calls :
    ∃ s t : RegionList Nat, RegionList.initMm 1 = some s ∧
      Lts.Run RegionList.Step s
        [.free 2 ⟨0, 8⟩ 0, .getFree 8 0 (some ⟨0, 8⟩), .free 1 ⟨8, 16⟩ 0] t ∧
      ∃ freerg : List VmRg, t.Holds freerg ∧ ∃ nodes : List Nat, nodes.Nodup ∧
        nodes.length = freerg.length ∧ ∀ a, t.node a ≠ none ↔ a ∈ nodes := by
  obtain ⟨s, hinit⟩ : ∃ s, RegionList.initMm 1 = some s := ⟨_, rfl⟩
  obtain ⟨t, hrun⟩ : ∃ t, Lts.Run RegionList.Step s
      [.free 2 ⟨0, 8⟩ 0, .getFree 8 0 (some ⟨0, 8⟩), .free 1 ⟨8, 16⟩ 0] t := by
    cases hinit
    exact ⟨_, ((Lts.Run.nil.snoc ⟨rfl, rfl⟩).snoc ⟨1, rfl⟩).snoc ⟨rfl, rfl⟩⟩
  obtain ⟨freerg, -, hholds, hnodes, -⟩ := region_list_refines hinit hrun
  exact ⟨s, t, hinit, hrun, freerg, hholds, hnodes⟩

end Memory
end Hdh
