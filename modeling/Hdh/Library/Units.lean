import Mathlib.Logic.Function.Basic

/-!
# Translation units

What the preprocessor of C makes of a source file and its headers, as far as it decides
about types, and how the fields of a structure are laid out in memory.  Two units that
declare the same structure with types of different sizes find its fields in different
places.

Main results:

- Theorem `preprocess_keeps`: where a guard has been defined, a type that is declared
  behind the guard only is not declared again, whatever else is included.
-/

namespace CUnit

/-! ## The preprocessor -/

section Preprocessor

variable {F M T V : Type*}

/-- The directives of a file, and its declarations of types by a macro. -/
inductive Text (F M T V : Type*)
  | eof
  | incl (f : F) (rest : Text F M T V)
  | define (m : M) (v : V) (rest : Text F M T V)
  | ifdef (m : M) (body other rest : Text F M T V)
  | typedef (t : T) (m : M) (rest : Text F M T V)

/-- What has been defined and declared so far. -/
structure Seen (M T V : Type*) where
  macros : M → Option V
  types : T → Option V

def Seen.nothing : Seen M T V := ⟨fun _ => none, fun _ => none⟩

/-- The guard stays defined, and the type what it is. -/
def Keeps (g : M) (t : T) (s s' : Seen M T V) : Prop :=
  (s.macros g).isSome → (s'.macros g).isSome ∧ s'.types t = s.types t

theorem Keeps.trans {g : M} {t : T} {s s' s'' : Seen M T V} (h : Keeps g t s s')
    (h' : Keeps g t s' s'') : Keeps g t s s'' := by
  intro hg
  obtain ⟨hg', ht⟩ := h hg
  obtain ⟨hg'', ht'⟩ := h' hg'
  exact ⟨hg'', ht'.trans ht⟩

variable [DecidableEq M] [DecidableEq T]

/-- Go through a text; `inc` goes through a file that is included. -/
def Text.exec (inc : F → Seen M T V → Option (Seen M T V)) :
    Text F M T V → Seen M T V → Option (Seen M T V)
  | .eof, s => some s
  | .incl f rest, s =>
      match inc f s with
      | none => none
      | some s => rest.exec inc s
  | .define m v rest, s =>
      rest.exec inc { s with macros := Function.update s.macros m (some v) }
  | .ifdef m body other rest, s =>
      match if (s.macros m).isSome then body.exec inc s else other.exec inc s with
      | none => none
      | some s => rest.exec inc s
  | .typedef t m rest, s =>
      rest.exec inc { s with types := Function.update s.types t (s.macros m) }

/-- The preprocessor; `none` when files are included more than `n` levels deep. -/
def preprocess (files : F → Text F M T V) :
    Nat → Text F M T V → Seen M T V → Option (Seen M T V)
  | 0, text => text.exec fun _ _ => none
  | n + 1, text => text.exec fun f => preprocess files n (files f)

/-- The text of a header behind a guard. -/
def guarded (g : M) (v : V) (body : Text F M T V) : Text F M T V :=
  .ifdef g .eof (.define g v body) .eof

/-- The type `t` is declared only where the guard `g` has not been defined. -/
def Text.Guards (g : M) (t : T) : Text F M T V → Prop
  | .eof => True
  | .incl _ rest => rest.Guards g t
  | .define _ _ rest => rest.Guards g t
  | .ifdef m body other rest =>
      body.Guards g t ∧ (m = g ∨ other.Guards g t) ∧ rest.Guards g t
  | .typedef t' _ rest => t' ≠ t ∧ rest.Guards g t

/-- Going through a text keeps the type when every file that it includes does. -/
theorem Text.exec_keeps {g : M} {t : T} {inc : F → Seen M T V → Option (Seen M T V)}
    (hinc : ∀ f s s', inc f s = some s' → Keeps g t s s') {text : Text F M T V}
    (htext : text.Guards g t) {s s' : Seen M T V} (h : text.exec inc s = some s') :
    Keeps g t s s' := by
  induction text generalizing s s' with
  | eof =>
      cases h
      exact fun hg => ⟨hg, rfl⟩
  | incl f rest ih =>
      rw [Text.exec] at h
      split at h
      · cases h
      · rename_i s₁ hs₁
        exact (hinc f s s₁ hs₁).trans (ih htext h)
  | define m v rest ih =>
      have hdefine : Keeps g t s { s with macros := Function.update s.macros m (some v) } := by
        refine fun hg => ⟨?_, rfl⟩
        by_cases hm : g = m
        · simp [hm]
        · simpa [Function.update_of_ne hm] using hg
      exact hdefine.trans (ih htext h)
  | ifdef m body other rest ihbody ihother ihrest =>
      obtain ⟨hbody, hother, hrest⟩ := htext
      intro hg
      rw [Text.exec] at h
      split at h
      · cases h
      · rename_i s₁ hs₁
        have hbranch : Keeps g t s s₁ := by
          split at hs₁
          · exact ihbody hbody hs₁
          · rename_i hm
            rcases hother with rfl | hother
            · exact absurd hg hm
            · exact ihother hother hs₁
        exact hbranch.trans (ihrest hrest h) hg
  | typedef t' m rest ih =>
      have hdeclare : Keeps g t s { s with types := Function.update s.types t' (s.macros m) } :=
        fun hg => ⟨hg, Function.update_of_ne (Ne.symm htext.1) _ _⟩
      exact hdeclare.trans (ih htext.2 h)

/-- Behind its guard, a type is not declared again. -/
theorem preprocess_keeps {files : F → Text F M T V} {g : M} {t : T}
    (hfiles : ∀ f, (files f).Guards g t) {n : Nat} {text : Text F M T V}
    (htext : text.Guards g t) {s s' : Seen M T V}
    (h : preprocess files n text s = some s') : Keeps g t s s' := by
  induction n generalizing text s s' with
  | zero => exact Text.exec_keeps (fun f s s' hnone => by cases hnone) htext h
  | succ n ih => exact Text.exec_keeps (fun f s s' hf => ih (hfiles f) hf) htext h

end Preprocessor

/-! ## Structures -/

section Structures

variable {N : Type*}

/-- The size and the alignment of a type. -/
structure CType where
  size : Nat
  align : Nat
deriving DecidableEq

/-- A number or a pointer of `n` bytes. -/
def CType.scalar (n : Nat) : CType := ⟨n, n⟩

def CType.array (t : CType) (n : Nat) : CType := ⟨n * t.size, t.align⟩

/-- The first multiple of `a` from `n` on. -/
def alignUp (n a : Nat) : Nat :=
  (n + a - 1) / a * a

/-- The place of a field in a structure whose next field begins at `pos` or behind it.  A
name that is no field has its place at the end. -/
def offsetFrom [DecidableEq N] : Nat → List (N × CType) → N → Nat
  | pos, [], _ => pos
  | pos, (name, t) :: fields, n =>
      if name = n then alignUp pos t.align
      else offsetFrom (alignUp pos t.align + t.size) fields n

/-- `offsetof`. -/
def offsetOf [DecidableEq N] (fields : List (N × CType)) (n : N) : Nat :=
  offsetFrom 0 fields n

/-- The end of the last field. -/
def endFrom : Nat → List (N × CType) → Nat
  | pos, [] => pos
  | pos, (_, t) :: fields => endFrom (alignUp pos t.align + t.size) fields

/-- `sizeof` of a structure. -/
def structSize (fields : List (N × CType)) : Nat :=
  alignUp (endFrom 0 fields) ((fields.map fun f => f.2.align).foldl max 1)

end Structures

/-! ## Memory -/

/-- The bytes of the host, at the addresses that are mapped. -/
abbrev Bytes := BitVec 64 → Option (BitVec 8)

/-- The number in `n` bytes, the least significant one first; `none` is a fault. -/
def loadNum (mem : Bytes) : Nat → BitVec 64 → Option Nat
  | 0, _ => some 0
  | n + 1, addr =>
      match mem addr, loadNum mem n (addr + 1) with
      | some b, some rest => some (b.toNat + 256 * rest)
      | _, _ => none

/-- The pointer at an address. -/
def loadPtr (mem : Bytes) (addr : BitVec 64) : Option (BitVec 64) :=
  (loadNum mem 8 addr).map (BitVec.ofNat 64)

end CUnit
