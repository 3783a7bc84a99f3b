import Mathlib

/-!
# Assoc — lists of named values

Lookup in a list of pairs with distinct names, and replacing the value under a name.
-/

namespace GeminiTS.Lib

open List

variable {F W W' : Type*} [DecidableEq F]

variable {l : List (F × W)}

variable {f : F}

theorem mem_of_lookup {c : W} (h : l.lookup f = some c) : (f, c) ∈ l := by
  induction l with
  | nil => simp at h
  | cons p l ih =>
    rw [lookup_cons] at h
    by_cases hf : f = p.1
    · subst hf
      obtain rfl : p.2 = c := by simpa using h
      exact mem_cons_self
    · rw [beq_false_of_ne hf] at h
      exact mem_cons_of_mem _ (ih h)

theorem lookup_of_mem_of_nodup (hl : (l.map Prod.fst).Nodup) {c : W} (h : (f, c) ∈ l) : l.lookup f = some c := by
  induction l with
  | nil => simp at h
  | cons p l ih =>
    rw [map_cons, nodup_cons] at hl
    rcases mem_cons.mp h with rfl | h
    · exact lookup_cons_self
    · have hne : f ≠ p.1 := by
        rintro rfl
        exact hl.1 (mem_map.mpr ⟨_, h, rfl⟩)
      rw [lookup_cons, beq_false_of_ne hne]
      exact ih hl.2 h

theorem lookup_eq_none : l.lookup f = none ↔ f ∉ l.map Prod.fst := by
  constructor
  · intro h hf
    obtain ⟨p, hp, rfl⟩ := mem_map.mp hf
    simpa using lookup_eq_none_iff.mp h p hp
  · intro h
    cases hl : l.lookup f with
    | none => rfl
    | some c => exact absurd (mem_map_of_mem (mem_of_lookup hl)) h

theorem lookup_isSome : (l.lookup f).isSome ↔ f ∈ l.map Prod.fst := by
  rw [← not_iff_not, Option.not_isSome_iff_eq_none, lookup_eq_none]

theorem lookup_map_snd (g : W → W') (l : List (F × W)) (f : F) :
    (l.map fun p => (p.1, g p.2)).lookup f = (l.lookup f).map g := by
  induction l with
  | nil => rfl
  | cons p l ih =>
    rw [map_cons, lookup_cons, lookup_cons, ih]
    cases f == p.1 <;> rfl

/-- Replace the value under a name. -/
def assocSet (l : List (F × W)) (f : F) (c : W) : List (F × W) := l.map fun p => if p.1 = f then (f, c) else p

@[simp] theorem map_fst_assocSet (l : List (F × W)) (f : F) (c : W) :
    (assocSet l f c).map Prod.fst = l.map Prod.fst := by
  rw [assocSet, map_map]
  refine map_congr_left fun p _ => ?_
  by_cases h : p.1 = f <;> simp [h]

theorem lookup_assocSet_self (h : f ∈ l.map Prod.fst) (c : W) : (assocSet l f c).lookup f = some c := by
  induction l with
  | nil => simp at h
  | cons p l ih =>
    by_cases hp : p.1 = f
    · simp [assocSet, hp]
    · have hmem : f ∈ l.map Prod.fst := by
        rcases mem_cons.mp h with rfl | h
        · exact absurd rfl hp
        · exact h
      have hset : assocSet (p :: l) f c = p :: assocSet l f c := by
        rw [assocSet, map_cons, if_neg hp, assocSet]
      rw [hset, lookup_cons, beq_false_of_ne (Ne.symm hp)]
      exact ih hmem

theorem lookup_assocSet_of_ne {f' : F} (h : f' ≠ f) (c : W) : (assocSet l f c).lookup f' = l.lookup f' := by
  induction l with
  | nil => rfl
  | cons p l ih =>
    rw [assocSet, map_cons, ← assocSet]
    by_cases hp : p.1 = f
    · rw [if_pos hp, lookup_cons, lookup_cons, hp, beq_false_of_ne h, ih]
    · rw [if_neg hp, lookup_cons, lookup_cons, ih]

end GeminiTS.Lib
