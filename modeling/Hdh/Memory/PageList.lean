import Hdh.Library.Containers
import Hdh.Library.Runs
import Hdh.Memory.Paging

/-!
# The page list as a chain of nodes

`enlist_pgn_node` and `find_victim_page` over the nodes in memory.  A pointer is an address
or NULL.  `malloc` and `free` are not part of the program: the answer of `malloc` is an
argument, and all that is assumed of it is that it is not NULL and that no node in use is
there.  An address may come back after `free`.

The loop of `find_victim_page` follows pointers, and nothing in the code bounds it.  Its
model gets a number of turns; without enough of them, and where a pointer does not lead to
a node in use, the answer is `none`.

Main results:

- Theorem `lastLoop_eq`: the loop stops at the last node, with its predecessor.
- Theorem `Holds.findVictimPage`: on a chain that holds a list, the function does what it does
  to the list.
- Theorem `page_list_fifo`: the pages come out of the list in the order in which they have been
  enlisted, and the answer is -1 exactly when none of them is left.
-/

namespace Hdh
namespace Memory

variable {A : Type} [DecidableEq A]

/-- The nodes `struct pgn_t` in memory, each with `pgn` and `pg_next`, and
`mm->fifo_pgn`. -/
structure PageList (A : Type) where
  node : Linked.Heap A Addr
  fifoPgn : Option A

namespace PageList

/-- `enlist_pgn_node`, where `pnode` is what `malloc` answers; it always answers 0. -/
def enlistPgnNode (s : PageList A) (pnode : A) (pgn : Addr) : Int × PageList A :=
  (0, { node := Function.update s.node pnode (some { value := pgn, next := s.fifoPgn })
        fifoPgn := some pnode })

omit [DecidableEq A] in
/-- `while (pg->pg_next) { prev = pg; pg = pg->pg_next; }`, for fewer than `fuel` turns. -/
def lastLoop (node : Linked.Heap A Addr) : Nat → Option A → A → Option (Option A × A)
  | 0, _, _ => none
  | fuel + 1, prev, pg =>
      (node pg).bind fun nd =>
        match nd.next with
        | none => some (prev, pg)
        | some next => lastLoop node fuel (some pg) next

/-- `find_victim_page`: the return code, the page if one is assigned to `*retpgn`, and the
memory. -/
def findVictimPage (fuel : Nat) (s : PageList A) :
    Option (Int × Option Addr × PageList A) :=
  match s.fifoPgn with
  | none => some (-1, none, s)
  | some pg =>
      (lastLoop s.node fuel none pg).bind fun last =>
        (s.node last.2).bind fun nd =>
          match last.1 with
          | some prev =>
              (s.node prev).map fun pnd =>
                let node := Function.update s.node prev (some { pnd with next := none })
                (0, some nd.value, { s with node := Function.update node last.2 none })
          | none =>
              some (0, some nd.value,
                { node := Function.update s.node last.2 none, fifoPgn := none })

/-! ## The loop -/

omit [DecidableEq A] in
/-- The loop stops at the last node, and `prev` is the node before it, if there is one. -/
theorem lastLoop_eq {node : Linked.Heap A Addr} {l : List (A × Addr)} {a pg : A} {pgn : Addr}
    (hl : Linked.Chain node (some pg) (l ++ [(a, pgn)])) (fuel : Nat) (prev : Option A) :
    lastLoop node fuel prev pg =
      if l.length < fuel then some ((l.getLast?.map Prod.fst).or prev, a) else none := by
  induction l generalizing fuel prev pg with
  | nil =>
      cases hl.1
      cases fuel with
      | zero => rfl
      | succ fuel =>
          rw [lastLoop, hl.last, Option.bind_some, List.length_nil, if_pos (Nat.succ_pos fuel)]
          rfl
  | cons bw l ih =>
      obtain ⟨b, w⟩ := bw
      obtain ⟨hpg, next, hnode, hrest⟩ := hl
      cases hpg
      -- what is left of the chain is not empty, so that `pg_next` is not NULL
      obtain ⟨pg', rfl⟩ := hrest.first
      cases fuel with
      | zero => rfl
      | succ fuel =>
          have hprev : (l.getLast?.map Prod.fst).or (some pg) =
              (((pg, w) :: l).getLast?.map Prod.fst).or prev := by
            rw [List.getLast?_cons]
            cases l.getLast? <;> rfl
          rw [lastLoop, hnode, Option.bind_some, List.length_cons, ← hprev]
          simp only [ih hrest, Nat.add_lt_add_iff_right]

/-! ## The list -/

omit [DecidableEq A] in
/-- The pages of the nodes on the list, from the first one on. -/
def Holds (s : PageList A) (fifoPgn : List Addr) : Prop :=
  ∃ nodes : List (A × Addr), Linked.Chain s.node s.fifoPgn nodes ∧
    nodes.map Prod.snd = fifoPgn

variable {s t : PageList A} {fifoPgn : List Addr}

omit [DecidableEq A] in
theorem holds_nil (hempty : s.fifoPgn = none) : s.Holds [] :=
  ⟨[], hempty, rfl⟩

/-- A new node becomes the first one. -/
theorem Holds.enlist (h : s.Holds fifoPgn) {pnode : A} (hfresh : s.node pnode = none)
    (pgn : Addr) : (s.enlistPgnNode pnode pgn).2.Holds (pgn :: fifoPgn) := by
  obtain ⟨nodes, hchain, rfl⟩ := h
  exact ⟨(pnode, pgn) :: nodes, hchain.push hfresh pgn, rfl⟩

theorem Holds.findVictimPage_nil (h : s.Holds []) (fuel : Nat) :
    s.findVictimPage fuel = some (-1, none, s) := by
  obtain ⟨nodes, hchain, hnil⟩ := h
  rw [List.map_eq_nil_iff] at hnil
  subst hnil
  rw [PageList.findVictimPage, show s.fifoPgn = none from hchain]

/-- The last page is taken off the list, whether it is the only one or not. -/
theorem Holds.findVictimPage_append {pgn : Addr} (h : s.Holds (fifoPgn ++ [pgn]))
    (fuel : Nat) :
    ∃ t : PageList A, t.Holds fifoPgn ∧
      s.findVictimPage fuel =
        if fifoPgn.length < fuel then some (0, some pgn, t) else none := by
  obtain ⟨nodes, hchain, hmap⟩ := h
  obtain ⟨l, last, rfl, rfl, hlast⟩ := List.map_eq_append_iff.mp hmap
  obtain ⟨⟨a, w⟩, rfl, rfl⟩ := List.map_eq_singleton_iff.mp hlast
  obtain ⟨pg, hfirst⟩ := hchain.first
  have hnode := hchain.last
  have hloop := lastLoop_eq (hfirst ▸ hchain) fuel none
  rw [PageList.findVictimPage, hfirst]
  simp only [hloop, List.length_map]
  rcases List.eq_nil_or_concat l with rfl | ⟨l, ⟨b, v⟩, rfl⟩
  · refine ⟨{ node := Function.update s.node a none, fifoPgn := none }, holds_nil rfl, ?_⟩
    split_ifs
    · simp [hnode]
    · rfl
  · rw [List.concat_eq_append] at hchain ⊢
    rw [List.append_assoc] at hchain
    obtain ⟨r, -, -, next, hprev, hnext⟩ := Linked.segment_append.mp hchain
    refine ⟨{ s with
      node := Function.update (Function.update s.node b (some { value := v, next := none }))
        a none }, ⟨l ++ [(b, v)], hchain.removeLast, rfl⟩, ?_⟩
    split_ifs
    · simp [hnode, hprev, hfirst]
    · rfl

/-- On a chain that holds a list, `find_victim_page` does what it does to the list. -/
theorem Holds.findVictimPage (h : s.Holds fifoPgn) (fuel : Nat) :
    match Memory.findVictimPage fifoPgn with
    | none => s.findVictimPage fuel = some (-1, none, s)
    | some (pgn, rest) => ∃ t : PageList A, t.Holds rest ∧
        s.findVictimPage fuel = if rest.length < fuel then some (0, some pgn, t) else none := by
  rcases List.eq_nil_or_concat fifoPgn with rfl | ⟨rest, pgn, rfl⟩
  · exact h.findVictimPage_nil fuel
  · rw [List.concat_eq_append] at h ⊢
    rw [Memory.findVictimPage_append]
    exact h.findVictimPage_append fuel

/-- The loop ends within as many turns as there are pages. -/
theorem Holds.findVictimPage_isSome (h : s.Holds fifoPgn) {fuel : Nat}
    (hfuel : fifoPgn.length < fuel) : (s.findVictimPage fuel).isSome := by
  rcases List.eq_nil_or_concat fifoPgn with rfl | ⟨rest, pgn, rfl⟩
  · rw [h.findVictimPage_nil fuel]
    rfl
  · rw [List.concat_eq_append] at h hfuel
    obtain ⟨t, -, hfind⟩ := h.findVictimPage_append fuel
    rw [List.length_append, List.length_singleton] at hfuel
    rw [hfind, if_pos (by omega)]
    rfl

/-- The return code is -1 for the empty list, and then nothing is changed; else it is 0. -/
theorem Holds.findVictimPage_ret (h : s.Holds fifoPgn) {fuel : Nat} {ret : Int}
    {retpgn : Option Addr} (hfind : s.findVictimPage fuel = some (ret, retpgn, t)) :
    (ret = -1 ↔ fifoPgn = []) ∧ (ret = -1 → retpgn = none ∧ t = s) ∧
      (ret ≠ -1 → ret = 0) := by
  rcases List.eq_nil_or_concat fifoPgn with rfl | ⟨rest, pgn, rfl⟩
  · rw [h.findVictimPage_nil fuel] at hfind
    cases hfind
    exact ⟨iff_of_true rfl rfl, fun _ => ⟨rfl, rfl⟩, fun hne => absurd rfl hne⟩
  · rw [List.concat_eq_append] at h ⊢
    obtain ⟨u, -, heq⟩ := h.findVictimPage_append fuel
    rw [heq] at hfind
    split_ifs at hfind
    cases hfind
    exact ⟨iff_of_false (by decide) (by simp), fun hne => absurd hne (by decide), fun _ => rfl⟩

end PageList

/-! ## Runs -/

/-- The calls, with what `malloc` answers, the return code and the page that is assigned to
`*retpgn`. -/
inductive PgnEvent (A : Type)
  | enlist (pnode : A) (pgn : Addr)
  | find (ret : Int) (retpgn : Option Addr)

/-- The page that a call enlists. -/
def PgnEvent.enlisted : PgnEvent A → List Addr
  | .enlist _ pgn => [pgn]
  | .find _ _ => []

/-- The page that a successful call of `find_victim_page` returns. -/
def PgnEvent.returned : PgnEvent A → List Addr
  | .enlist _ _ => []
  | .find ret retpgn => if ret = 0 then retpgn.toList else []

/-- A call on the nodes in memory; `malloc` answers no node in use. -/
def PageList.Step (s : PageList A) : PgnEvent A → PageList A → Prop
  | .enlist pnode pgn, t => s.node pnode = none ∧ s.enlistPgnNode pnode pgn = (0, t)
  | .find ret retpgn, t => ∃ fuel, s.findVictimPage fuel = some (ret, retpgn, t)

/-- A call on the list of pages. -/
def FifoStep (fifoPgn : List Addr) : PgnEvent A → List Addr → Prop
  | .enlist _ pgn, rest => rest = pgn :: fifoPgn
  | .find ret retpgn, rest =>
      match findVictimPage fifoPgn with
      | none => ret = -1 ∧ retpgn = none ∧ rest = fifoPgn
      | some (pgn, fifoPgn) => ret = 0 ∧ retpgn = some pgn ∧ rest = fifoPgn

/-- A call on the nodes does what it does to the list that they hold. -/
theorem step_fifoStep {s t : PageList A} {e : PgnEvent A} {fifoPgn : List Addr}
    (hstep : s.Step e t) (h : s.Holds fifoPgn) :
    ∃ rest, FifoStep fifoPgn e rest ∧ t.Holds rest := by
  cases e with
  | enlist pnode pgn =>
      obtain ⟨hfresh, heq⟩ := hstep
      cases heq
      exact ⟨pgn :: fifoPgn, rfl, h.enlist hfresh pgn⟩
  | find ret retpgn =>
      obtain ⟨fuel, hfind⟩ := hstep
      have hspec := h.findVictimPage fuel
      simp only [FifoStep]
      cases hlist : findVictimPage fifoPgn with
      | none =>
          rw [hlist] at hspec
          cases hspec.symm.trans hfind
          exact ⟨fifoPgn, ⟨rfl, rfl, rfl⟩, h⟩
      | some r =>
          rw [hlist] at hspec
          obtain ⟨u, hu, hspec⟩ := hspec
          rw [hspec] at hfind
          split_ifs at hfind
          cases hfind
          exact ⟨r.2, ⟨rfl, rfl, rfl⟩, hu⟩

omit [DecidableEq A] in
/-- The list gives its pages back from the end where they do not go in. -/
theorem fifoStep_reverse {l l' : List Addr} {e : PgnEvent A} (h : FifoStep l e l') :
    l.reverse ++ e.enlisted = e.returned ++ l'.reverse := by
  cases e with
  | enlist pnode pgn =>
      cases h
      simp [PgnEvent.enlisted, PgnEvent.returned]
  | find ret retpgn =>
      simp only [FifoStep] at h
      split at h
      · obtain ⟨rfl, rfl, rfl⟩ := h
        simp [PgnEvent.enlisted, PgnEvent.returned]
      · rename_i pgn rest hlist
        obtain ⟨rfl, rfl, rfl⟩ := h
        rw [findVictimPage_eq_some hlist]
        simp [PgnEvent.enlisted, PgnEvent.returned]

/-- The page list is a FIFO queue.  The pages that have been enlisted are those that have
been returned, followed by those on the list, the oldest one first.  A call of
`find_victim_page` comes to its end; it answers -1 if and only if all enlisted pages have been
returned, and `*retpgn` is not assigned then. -/
theorem page_list_fifo {s t : PageList A} {es : List (PgnEvent A)} (hempty : s.fifoPgn = none)
    (hrun : Lts.Run PageList.Step s es t) :
    ∃ rest, es.flatMap PgnEvent.enlisted = es.flatMap PgnEvent.returned ++ rest ∧
      t.Holds rest.reverse ∧
      (∀ fuel, rest.length < fuel → (t.findVictimPage fuel).isSome) ∧
      ∀ fuel ret retpgn u, t.findVictimPage fuel = some (ret, retpgn, u) →
        (ret = -1 ↔ es.flatMap PgnEvent.enlisted = es.flatMap PgnEvent.returned) ∧
        (ret = -1 → retpgn = none ∧ u = t) ∧ (ret ≠ -1 → ret = 0) := by
  obtain ⟨fifoPgn, hlist, hholds⟩ := hrun.forward (PageList.holds_nil hempty)
    fun _ _ _ _ => step_fifoStep
  have hfifo := hlist.fifo List.reverse PgnEvent.enlisted PgnEvent.returned
    fun _ _ _ => fifoStep_reverse
  rw [List.reverse_nil, List.nil_append] at hfifo
  refine ⟨fifoPgn.reverse, hfifo, by rwa [List.reverse_reverse], ?_, ?_⟩
  · intro fuel hfuel
    rw [List.length_reverse] at hfuel
    exact hholds.findVictimPage_isSome hfuel
  · intro fuel ret retpgn u hfind
    have hempty : es.flatMap PgnEvent.enlisted = es.flatMap PgnEvent.returned ↔
        fifoPgn = [] := by
      rw [hfifo, List.append_right_eq_self, List.reverse_eq_nil_iff]
    rw [hempty]
    exact hholds.findVictimPage_ret hfind

/-- A page that is enlisted twice, and a page whose node comes where a freed node was. -/
theorem page_list_fifo_four_calls :
    let s : PageList Nat := { node := fun _ => none, fifoPgn := none }
    let es : List (PgnEvent Nat) :=
      [.enlist 1 7, .enlist 2 7, .find 0 (some 7), .enlist 1 9]
    ∃ t, Lts.Run PageList.Step s es t ∧ t.Holds [9, 7] := by
  intro s es
  obtain ⟨t, hrun⟩ : ∃ t, Lts.Run PageList.Step s es t :=
    ⟨_, (((Lts.Run.nil.snoc ⟨rfl, rfl⟩).snoc ⟨rfl, rfl⟩).snoc ⟨2, rfl⟩).snoc ⟨rfl, rfl⟩⟩
  obtain ⟨rest, hrest, hholds, -⟩ := page_list_fifo rfl hrun
  have hpages : [7, 7, 9] = 7 :: rest := hrest
  rw [← (List.cons.inj hpages).2] at hholds
  exact ⟨t, hrun, hholds⟩

end Memory
end Hdh
