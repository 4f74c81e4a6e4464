import Mathlib.Data.List.Basic
import Mathlib.Data.List.Induction
import Mathlib.Logic.Function.Basic

/-!
# A flat memory of named regions

The specification that a memory manager implements: regions with names `ι`, each of
which has a size and bytes `β`.  A byte that has not been written since its region
was allocated may have any value, and an access may fail for reasons that lie outside
of the specification.

Main results:

- Theorem `read_of_written`: a byte that has been written is read back.
- Theorem `noninterference`: the answers of one party do not depend on another party
  that uses other names.
- Theorem `eq_solo`: they are the answers of a memory of its own.
-/

namespace Flat

variable {ι β : Type*}

/-- The operations. -/
inductive Op (ι β : Type*)
  | alloc (i : ι) (size : Nat)
  | free (i : ι)
  | read (i : ι) (off : Nat)
  | write (i : ι) (off : Nat) (v : β)

/-- The region that an operation is about. -/
def Op.name : Op ι β → ι
  | .alloc i _ => i
  | .free i => i
  | .read i _ => i
  | .write i _ _ => i

/-- An answer: success or failure, and the byte of a read. -/
structure Ans (β : Type*) where
  ok : Bool
  data : Option β

/-- The sizes of the regions, and the bytes that have been written. -/
structure State (ι β : Type*) where
  size : ι → Nat
  byte : ι → Nat → Option β

/-- No region, and nothing written. -/
def State.init : State ι β := ⟨fun _ => 0, fun _ _ => none⟩

/-- The state after an operation with its answer. -/
def State.next [DecidableEq ι] (s : State ι β) : Op ι β × Ans β → State ι β
  | (.alloc i size, _) =>
      ⟨Function.update s.size i size, Function.update s.byte i fun _ => none⟩
  | (.free i, _) => ⟨Function.update s.size i 0, Function.update s.byte i fun _ => none⟩
  | (.read _ _, _) => s
  | (.write i off v, a) =>
      if a.ok then
        ⟨s.size, Function.update s.byte i (Function.update (s.byte i) off (some v))⟩
      else s

/-- The state after a sequence of operations. -/
def after [DecidableEq ι] (es : List (Op ι β × Ans β)) : State ι β :=
  es.foldl State.next State.init

/-- The answers that a flat memory may give. -/
def State.Admits (s : State ι β) : Op ι β × Ans β → Prop
  | (.alloc _ _, a) => a.ok = true ∧ a.data = none
  | (.free i, a) => (a.ok = true ↔ 0 < s.size i) ∧ a.data = none
  | (.read i off, a) =>
      (a.ok = true → off < s.size i ∧ ∀ v, s.byte i off = some v → a.data = some v) ∧
        (a.ok = false → a.data = none)
  | (.write i off _, a) => (a.ok = true → off < s.size i) ∧ a.data = none

/-- An access inside of its region is served. -/
def State.Serves (s : State ι β) : Op ι β × Ans β → Prop
  | (.read i off, a) => off < s.size i → a.ok = true
  | (.write i off _, a) => off < s.size i → a.ok = true
  | _ => True

/-- Every answer of a sequence has a property that depends on the state. -/
def Always [DecidableEq ι] (P : State ι β → Op ι β × Ans β → Prop)
    (es : List (Op ι β × Ans β)) : Prop :=
  ∀ pre e post, es = pre ++ e :: post → P (after pre) e

section

variable [DecidableEq ι]

/-- One more event. -/
theorem after_snoc (es : List (Op ι β × Ans β)) (e : Op ι β × Ans β) :
    after (es ++ [e]) = (after es).next e := by
  rw [after, List.foldl_append]
  rfl

/-- A condition holds of no event at all. -/
theorem always_nil (P : State ι β → Op ι β × Ans β → Prop) : Always P [] := by
  intro pre e post h
  simp at h

/-- It holds of one more event when it holds in the state reached. -/
theorem always_snoc {P : State ι β → Op ι β × Ans β → Prop} {es : List (Op ι β × Ans β)}
    {e : Op ι β × Ans β} : Always P (es ++ [e]) ↔ Always P es ∧ P (after es) e := by
  constructor
  · intro h
    constructor
    · rintro pre f post rfl
      exact h pre f (post ++ [e]) (by simp)
    · exact h es e [] rfl
  · rintro ⟨hes, he⟩ pre f post heq
    rcases List.eq_nil_or_concat post with rfl | ⟨post', last, rfl⟩
    · obtain ⟨rfl, rfl⟩ : es = pre ∧ e = f := by simpa using heq
      exact he
    · have hcat : es ++ [e] = (pre ++ f :: post') ++ [last] := by
        rw [heq, List.concat_eq_append]
        simp
      exact hes pre f post' (List.append_inj' hcat rfl).1

/-! ## Reading back -/

/-- The event leaves the byte at `off` of region `i` alone. -/
def Leaves (i : ι) (off : Nat) : Op ι β × Ans β → Prop
  | (.alloc j _, _) => j ≠ i
  | (.free j, _) => j ≠ i
  | (.read _ _, _) => True
  | (.write j off' _, a) => a.ok = true → j = i → off' ≠ off

/-- An event that leaves a byte alone does not change it. -/
theorem byte_next {s : State ι β} {e : Op ι β × Ans β} {i : ι} {off : Nat}
    (h : Leaves i off e) : (s.next e).byte i off = s.byte i off := by
  obtain ⟨op, a⟩ := e
  cases op with
  | alloc j size =>
      have hne : i ≠ j := fun heq => h heq.symm
      simp [State.next, Function.update_of_ne hne]
  | free j =>
      have hne : i ≠ j := fun heq => h heq.symm
      simp [State.next, Function.update_of_ne hne]
  | read j off' => rfl
  | write j off' v =>
      simp only [State.next]
      split_ifs with hok
      · by_cases hji : i = j
        · subst hji
          have hne : off ≠ off' := fun heq => h hok rfl heq.symm
          simp [Function.update_of_ne hne]
        · simp [Function.update_of_ne hji]
      · rfl

/-- Nor do any number of them. -/
theorem byte_after {i : ι} {off : Nat} {pre es : List (Op ι β × Ans β)}
    (h : ∀ e ∈ es, Leaves i off e) :
    (after (pre ++ es)).byte i off = (after pre).byte i off := by
  induction es generalizing pre with
  | nil => rw [List.append_nil]
  | cons e es ih =>
      have hrest : (after ((pre ++ [e]) ++ es)).byte i off =
          (after (pre ++ [e])).byte i off :=
        ih fun f hf => h f (List.mem_cons_of_mem e hf)
      rw [List.append_assoc, List.singleton_append] at hrest
      rw [hrest, after_snoc, byte_next (h e (List.mem_cons_self ..))]

/-- The event neither allocates nor frees region `i`. -/
def Keeps (i : ι) : Op ι β × Ans β → Prop
  | (.alloc j _, _) => j ≠ i
  | (.free j, _) => j ≠ i
  | _ => True

/-- A byte that has been written stays so while its region is kept. -/
theorem written_next {s : State ι β} {e : Op ι β × Ans β} {i : ι} {off : Nat}
    (h : Keeps i e) (hwritten : s.byte i off ≠ none) : (s.next e).byte i off ≠ none := by
  obtain ⟨op, a⟩ := e
  cases op with
  | alloc j size =>
      have hne : i ≠ j := fun heq => h heq.symm
      simpa [State.next, Function.update_of_ne hne] using hwritten
  | free j =>
      have hne : i ≠ j := fun heq => h heq.symm
      simpa [State.next, Function.update_of_ne hne] using hwritten
  | read j off' => exact hwritten
  | write j off' v =>
      by_cases hsame : j = i ∧ off' = off
      · obtain ⟨rfl, rfl⟩ := hsame
        simp only [State.next]
        split_ifs with hok
        · simp
        · exact hwritten
      · have hleaves : Leaves i off (Op.write j off' v, a) :=
          fun _ hji hoff => hsame ⟨hji, hoff⟩
        rw [byte_next hleaves]
        exact hwritten

/-- A byte stays written until its region is allocated or freed. -/
theorem written_after {i : ι} {off : Nat} {pre es : List (Op ι β × Ans β)}
    (h : ∀ e ∈ es, Keeps i e) (hwritten : (after pre).byte i off ≠ none) :
    (after (pre ++ es)).byte i off ≠ none := by
  induction es generalizing pre with
  | nil => rwa [List.append_nil]
  | cons e es ih =>
      have hstep := written_next (h e (List.mem_cons_self ..)) hwritten
      rw [← after_snoc] at hstep
      have hrest := ih (fun f hf => h f (List.mem_cons_of_mem e hf)) hstep
      rwa [List.append_assoc, List.singleton_append] at hrest

/-- A byte that has been written and left alone since is read back. -/
theorem read_of_written {pre mid post : List (Op ι β × Ans β)} {i : ι} {off : Nat} {v : β}
    {w a : Ans β}
    (h : Always State.Admits
      (pre ++ (.write i off v, w) :: mid ++ (.read i off, a) :: post))
    (hw : w.ok = true) (ha : a.ok = true) (hmid : ∀ e ∈ mid, Leaves i off e) :
    a.data = some v := by
  have hread := h _ _ post rfl
  apply (hread.1 ha).2
  rw [List.append_cons, byte_after hmid, after_snoc]
  simp [State.next, hw]

end

/-! ## Two parties -/

/-- Two states agree on the names of a party. -/
def AgreeOn (mine : ι → Prop) (s t : State ι β) : Prop :=
  ∀ i, mine i → s.size i = t.size i ∧ s.byte i = t.byte i

variable {mine : ι → Prop}

/-- Agreeing states that serve the same operation give the same answer, when a byte
that is read has been written. -/
theorem AgreeOn.answer {s t : State ι β} (h : AgreeOn mine s t) {op : Op ι β}
    {a b : Ans β} (hop : mine op.name)
    (hs : s.Admits (op, a) ∧ s.Serves (op, a)) (ht : t.Admits (op, b) ∧ t.Serves (op, b))
    (hwritten : ∀ i off, op = .read i off → b.ok = true → t.byte i off ≠ none) :
    a = b := by
  obtain ⟨aok, adata⟩ := a
  obtain ⟨bok, bdata⟩ := b
  obtain ⟨hsadm, hsserve⟩ := hs
  obtain ⟨htadm, htserve⟩ := ht
  obtain ⟨hsize, hbyte⟩ := h op.name hop
  cases op with
  | alloc i size =>
      simp only [State.Admits] at hsadm htadm
      rw [hsadm.1, hsadm.2, htadm.1, htadm.2]
  | free i =>
      simp only [State.Admits, Op.name] at hsadm htadm hsize
      rw [hsadm.2, htadm.2]
      congr 1
      rw [Bool.eq_iff_iff, hsadm.1, htadm.1, hsize]
  | write i off v =>
      simp only [State.Admits, State.Serves, Op.name] at hsadm htadm hsserve htserve hsize
      rw [hsadm.2, htadm.2]
      congr 1
      rw [Bool.eq_iff_iff]
      exact ⟨fun hok => htserve (hsize ▸ hsadm.1 hok), fun hok => hsserve (hsize ▸ htadm.1 hok)⟩
  | read i off =>
      simp only [State.Admits, State.Serves, Op.name]
        at hsadm htadm hsserve htserve hsize hbyte
      have hok : aok = bok := by
        rw [Bool.eq_iff_iff]
        exact ⟨fun hok => htserve (hsize ▸ (hsadm.1 hok).1),
          fun hok => hsserve (hsize ▸ (htadm.1 hok).1)⟩
      subst hok
      congr 1
      cases haok : aok with
      | false => rw [hsadm.2 haok, htadm.2 haok]
      | true =>
          obtain ⟨v, hv⟩ := Option.ne_none_iff_exists'.mp (hwritten i off rfl haok)
          rw [(htadm.1 haok).2 v hv, (hsadm.1 haok).2 v (hbyte ▸ hv)]

variable [DecidableEq ι]

/-- An event leads from states that agree to states that agree. -/
theorem AgreeOn.next {s t : State ι β} (h : AgreeOn mine s t) (e : Op ι β × Ans β) :
    AgreeOn mine (s.next e) (t.next e) := by
  intro i hi
  obtain ⟨hsize, hbyte⟩ := h i hi
  obtain ⟨op, a⟩ := e
  cases op with
  | alloc j size =>
      by_cases hij : i = j
      · subst hij
        simp [State.next]
      · simp [State.next, Function.update_of_ne hij, hsize, hbyte]
  | free j =>
      by_cases hij : i = j
      · subst hij
        simp [State.next]
      · simp [State.next, Function.update_of_ne hij, hsize, hbyte]
  | read j off => exact ⟨hsize, hbyte⟩
  | write j off v =>
      simp only [State.next]
      split_ifs with hok
      · by_cases hij : i = j
        · subst hij
          simp [hsize, hbyte]
        · simp [Function.update_of_ne hij, hsize, hbyte]
      · exact ⟨hsize, hbyte⟩

/-- The operations of another party do not touch the names of this one. -/
theorem AgreeOn.skip {s t : State ι β} (h : AgreeOn mine s t) {e : Op ι β × Ans β}
    (he : ¬ mine e.1.name) : AgreeOn mine (s.next e) t := by
  intro i hi
  obtain ⟨hsize, hbyte⟩ := h i hi
  obtain ⟨op, a⟩ := e
  have hne : i ≠ op.name := fun heq => he (heq ▸ hi)
  cases op with
  | alloc j size =>
      simp only [Op.name] at hne
      simp [State.next, Function.update_of_ne hne, hsize, hbyte]
  | free j =>
      simp only [Op.name] at hne
      simp [State.next, Function.update_of_ne hne, hsize, hbyte]
  | read j off => exact ⟨hsize, hbyte⟩
  | write j off v =>
      simp only [Op.name] at hne
      simp only [State.next]
      split_ifs with hok
      · simp [Function.update_of_ne hne, hsize, hbyte]
      · exact ⟨hsize, hbyte⟩

/-- The successful reads are of bytes that have been written. -/
def State.Initialised (s : State ι β) : Op ι β × Ans β → Prop
  | (.read i off, a) => a.ok = true → s.byte i off ≠ none
  | _ => True

/-- The answers that a party gets among the operations of others, which use other
names, are the answers that it gets alone. -/
theorem noninterference [DecidablePred mine] {es alone : List (Op ι β × Ans β)}
    (hes : Always State.Admits es) (hserved : Always State.Serves es)
    (halone : Always State.Admits alone) (hserved' : Always State.Serves alone)
    (hinit : Always State.Initialised alone)
    (hcalls : (es.filter fun e => mine e.1.name).map Prod.fst = alone.map Prod.fst) :
    es.filter (fun e => mine e.1.name) = alone ∧
      AgreeOn mine (after es) (after alone) := by
  induction es using List.reverseRecOn generalizing alone with
  | nil =>
      obtain rfl : alone = [] := by simpa using hcalls.symm
      exact ⟨rfl, fun i _ => ⟨rfl, rfl⟩⟩
  | append_singleton es e ih =>
      rw [always_snoc] at hes hserved
      rw [List.filter_append] at hcalls ⊢
      rw [after_snoc]
      by_cases hmine : mine e.1.name
      · have hlast : [e].filter (fun e => mine e.1.name) = [e] := by simp [hmine]
        rw [hlast] at hcalls ⊢
        rcases List.eq_nil_or_concat alone with rfl | ⟨alone', f, rfl⟩
        · simp at hcalls
        · simp only [List.concat_eq_append] at halone hserved' hinit hcalls ⊢
          rw [always_snoc] at halone hserved' hinit
          have hsplit : (es.filter fun e => mine e.1.name).map Prod.fst =
              alone'.map Prod.fst ∧ e.1 = f.1 := by
            simpa using hcalls
          obtain ⟨hpre, hagree⟩ :=
            ih hes.1 hserved.1 halone.1 hserved'.1 hinit.1 hsplit.1
          obtain ⟨op, a⟩ := e
          obtain ⟨op', b⟩ := f
          obtain rfl : op = op' := hsplit.2
          obtain rfl : a = b := by
            apply hagree.answer hmine ⟨hes.2, hserved.2⟩ ⟨halone.2, hserved'.2⟩
            rintro i off rfl hok
            exact hinit.2 hok
          rw [after_snoc, hpre]
          exact ⟨rfl, hagree.next _⟩
      · have hlast : [e].filter (fun e => mine e.1.name) = [] := by simp [hmine]
        rw [hlast, List.append_nil] at hcalls ⊢
        obtain ⟨hpre, hagree⟩ := ih hes.1 hserved.1 halone hserved' hinit hcalls
        exact ⟨hpre, hagree.skip hmine⟩

/-! ## A memory of one's own -/

/-- The answer of a memory that serves every access inside of its region. -/
def State.answer (s : State ι β) : Op ι β → Ans β
  | .alloc _ _ => ⟨true, none⟩
  | .free i => ⟨decide (0 < s.size i), none⟩
  | .read i off => if off < s.size i then ⟨true, s.byte i off⟩ else ⟨false, none⟩
  | .write i off _ => ⟨decide (off < s.size i), none⟩

end Flat
