import Mathlib.Data.List.Basic
import Mathlib.Data.List.Nodup
import Mathlib.Data.List.Perm.Basic
import Mathlib.Logic.Function.Basic

/-!
# Ownership of resources

A pool of resources `F` with a free list, and holders `K` that hold at most one
resource each.  `Owned` says that nothing is lost and nothing is shared.

Main results:

- Theorem `Owned.take`: a free resource goes to a holder that has none.
- Theorem `Owned.assign`: several free resources go to different holders.
- Theorem `Owned.pass`: a holder passes its resource on.
- Theorem `Owned.exactly_once`: a resource is free once or held once, never both and
  never neither.
-/

namespace Ownership

variable {K F G : Type*}

/-! ## Ownership -/

/-- Every resource of `dom` is on the free list or held, but not both; no resource is
on the list twice, and none is held twice. -/
structure Owned (dom : F → Prop) (free : List F) (held : K → Option F) : Prop where
  free_nodup : free.Nodup
  free_dom : ∀ f ∈ free, dom f
  held_dom : ∀ k f, held k = some f → dom f
  held_inj : ∀ k k' f, held k = some f → held k' = some f → k = k'
  disjoint : ∀ k f, held k = some f → f ∉ free
  cover : ∀ f, dom f → f ∈ free ∨ ∃ k, held k = some f

namespace Owned

variable {dom : F → Prop} {free free' : List F} {held : K → Option F}

/-- In the beginning all resources are free. -/
theorem init (hnodup : free.Nodup) (hdom : ∀ f, f ∈ free ↔ dom f) :
    Owned dom free (fun _ : K => none) where
  free_nodup := hnodup
  free_dom := fun f hf => (hdom f).mp hf
  held_dom := by simp
  held_inj := by simp
  disjoint := by simp
  cover := fun f hf => Or.inl ((hdom f).mpr hf)

/-- The order of the free list does not matter. -/
theorem perm (h : Owned dom free held) (hperm : free.Perm free') :
    Owned dom free' held where
  free_nodup := hperm.nodup_iff.mp h.free_nodup
  free_dom := fun f hf => h.free_dom f (hperm.mem_iff.mpr hf)
  held_dom := h.held_dom
  held_inj := h.held_inj
  disjoint := fun k f hk hf => h.disjoint k f hk (hperm.mem_iff.mpr hf)
  cover := fun f hf => (h.cover f hf).imp_left hperm.mem_iff.mp

/-- A resource is on the free list exactly once or held by exactly one holder, never
both and never neither. -/
theorem exactly_once [DecidableEq F] (h : Owned dom free held) {f : F} (hf : dom f) :
    (free.count f = 1 ∧ ∀ k, held k ≠ some f) ∨
      (free.count f = 0 ∧ ∃! k, held k = some f) := by
  by_cases hfree : f ∈ free
  · exact Or.inl ⟨List.count_eq_one_of_mem h.free_nodup hfree,
      fun k hk => h.disjoint k f hk hfree⟩
  · refine Or.inr ⟨List.count_eq_zero_of_not_mem hfree, ?_⟩
    obtain ⟨k, hk⟩ := (h.cover f hf).resolve_left hfree
    exact ⟨k, hk, fun j hj => h.held_inj j k f hj hk⟩

end Owned

/-! ## Assignments -/

variable [DecidableEq K]

/-- Change a function at several arguments, one after the other. -/
def assign (pairs : List (K × F)) (g : K → F) : K → F :=
  pairs.foldl (fun g kf => Function.update g kf.1 kf.2) g

/-- The first pair is assigned first. -/
theorem assign_cons (kf : K × F) (pairs : List (K × F)) (g : K → F) :
    assign (kf :: pairs) g = assign pairs (Function.update g kf.1 kf.2) := rfl

/-- A key that is in no pair keeps its value. -/
theorem assign_of_not_mem {pairs : List (K × F)} {g : K → F} {k : K}
    (hk : k ∉ pairs.map Prod.fst) : assign pairs g k = g k := by
  induction pairs generalizing g with
  | nil => rfl
  | cons kf pairs ih =>
      rw [List.map_cons, List.mem_cons, not_or] at hk
      rw [assign_cons, ih hk.2, Function.update_of_ne hk.1]

/-- With different keys, each key gets the value of its pair. -/
theorem assign_of_mem {pairs : List (K × F)} {g : K → F} {k : K} {f : F}
    (hnodup : (pairs.map Prod.fst).Nodup) (hmem : (k, f) ∈ pairs) :
    assign pairs g k = f := by
  induction pairs generalizing g with
  | nil => cases hmem
  | cons kf pairs ih =>
      rw [List.map_cons, List.nodup_cons] at hnodup
      rcases List.mem_cons.mp hmem with rfl | hmem
      · rw [assign_cons, assign_of_not_mem hnodup.1, Function.update_self]
      · rw [assign_cons, ih hnodup.2 hmem]

/-- To assign and then to map is to map and then to assign. -/
theorem comp_assign (φ : F → G) (pairs : List (K × F)) (g : K → F) :
    φ ∘ assign pairs g = assign (pairs.map (Prod.map id φ)) (φ ∘ g) := by
  induction pairs generalizing g with
  | nil => rfl
  | cons kf pairs ih =>
      rw [assign_cons, ih, List.map_cons, assign_cons, Function.comp_update]
      rfl

/-! ## Moving resources -/

namespace Owned

variable {dom : F → Prop} {free : List F} {held : K → Option F}

/-- A free resource goes to a holder that has none. -/
theorem take {f : F} {k : K} (h : Owned dom (f :: free) held) (hk : held k = none) :
    Owned dom free (Function.update held k (some f)) := by
  obtain ⟨hf, hnodup⟩ := List.nodup_cons.mp h.free_nodup
  have hupd : ∀ {k' g}, Function.update held k (some f) k' = some g →
      (k' = k ∧ g = f) ∨ (k' ≠ k ∧ held k' = some g) := by
    intro k' g hk'
    by_cases heq : k' = k
    · rw [heq, Function.update_self] at hk'
      exact Or.inl ⟨heq, (Option.some.inj hk').symm⟩
    · rw [Function.update_of_ne heq] at hk'
      exact Or.inr ⟨heq, hk'⟩
  constructor
  · exact hnodup
  · exact fun g hg => h.free_dom g (List.mem_cons_of_mem f hg)
  · intro k' g hk'
    rcases hupd hk' with ⟨-, rfl⟩ | ⟨-, hk'⟩
    · exact h.free_dom g (List.mem_cons_self ..)
    · exact h.held_dom k' g hk'
  · intro k₁ k₂ g h₁ h₂
    rcases hupd h₁ with ⟨hk₁, hg₁⟩ | ⟨-, h₁⟩ <;> rcases hupd h₂ with ⟨hk₂, hg₂⟩ | ⟨-, h₂⟩
    · rw [hk₁, hk₂]
    · exact absurd (List.mem_cons_self ..) (h.disjoint k₂ f (hg₁ ▸ h₂))
    · exact absurd (List.mem_cons_self ..) (h.disjoint k₁ f (hg₂ ▸ h₁))
    · exact h.held_inj k₁ k₂ g h₁ h₂
  · intro k' g hk'
    rcases hupd hk' with ⟨-, rfl⟩ | ⟨-, hk'⟩
    · exact hf
    · exact fun hg => h.disjoint k' g hk' (List.mem_cons_of_mem f hg)
  · intro g hg
    rcases h.cover g hg with hfree | ⟨k', hk'⟩
    · rcases List.mem_cons.mp hfree with rfl | hfree
      · exact Or.inr ⟨k, Function.update_self ..⟩
      · exact Or.inl hfree
    · have hne : k' ≠ k := by
        rintro rfl
        rw [hk] at hk'
        cases hk'
      exact Or.inr ⟨k', by rw [Function.update_of_ne hne, hk']⟩

/-- Several free resources go to different holders that have none. -/
theorem assign {pairs : List (K × F)} (hnodup : (pairs.map Prod.fst).Nodup)
    (hnone : ∀ k ∈ pairs.map Prod.fst, held k = none)
    (h : Owned dom (pairs.map Prod.snd ++ free) held) :
    Owned dom free (Ownership.assign (pairs.map (Prod.map id some)) held) := by
  induction pairs generalizing held with
  | nil => exact h
  | cons kf pairs ih =>
      rw [List.map_cons, List.nodup_cons] at hnodup
      rw [List.map_cons, assign_cons]
      apply ih hnodup.2
      · intro k hk
        have hne : k ≠ kf.1 := fun heq => hnodup.1 (heq ▸ hk)
        exact (Function.update_of_ne hne ..).trans
          (hnone k (List.mem_cons_of_mem _ hk))
      · exact h.take (hnone kf.1 (List.mem_cons_self ..))

/-- A holder passes its resource on to one that has none. -/
theorem pass {f : F} {k k' : K} (h : Owned dom free held) (hk : held k = some f)
    (hk' : held k' = none) :
    Owned dom free (Function.update (Function.update held k none) k' (some f)) := by
  have hreturn : Owned dom (f :: free) (Function.update held k none) := by
    have hupd : ∀ {j g}, Function.update held k none j = some g →
        j ≠ k ∧ held j = some g := by
      intro j g hj
      by_cases heq : j = k
      · rw [heq, Function.update_self] at hj
        cases hj
      · rw [Function.update_of_ne heq] at hj
        exact ⟨heq, hj⟩
    constructor
    · exact List.nodup_cons.mpr ⟨h.disjoint k f hk, h.free_nodup⟩
    · intro g hg
      rcases List.mem_cons.mp hg with rfl | hg
      · exact h.held_dom k g hk
      · exact h.free_dom g hg
    · exact fun j g hj => h.held_dom j g (hupd hj).2
    · exact fun i j g hi hj => h.held_inj i j g (hupd hi).2 (hupd hj).2
    · intro j g hj hg
      obtain ⟨hne, hj⟩ := hupd hj
      rcases List.mem_cons.mp hg with rfl | hg
      · exact hne (h.held_inj j k g hj hk)
      · exact h.disjoint j g hj hg
    · intro g hg
      rcases h.cover g hg with hfree | ⟨j, hj⟩
      · exact Or.inl (List.mem_cons_of_mem f hfree)
      · by_cases hjk : j = k
        · rw [hjk, hk] at hj
          cases hj
          exact Or.inl (List.mem_cons_self ..)
        · exact Or.inr ⟨j, by rw [Function.update_of_ne hjk, hj]⟩
  apply hreturn.take
  by_cases heq : k' = k
  · rw [heq, Function.update_self]
  · rw [Function.update_of_ne heq, hk']

end Owned

end Ownership
