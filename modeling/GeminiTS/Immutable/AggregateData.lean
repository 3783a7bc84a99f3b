import GeminiTS.Lib.Bytes
import GeminiTS.Lib.Extreme

/-!
# AggregateData — combining the partial aggregates of several files

`AggregateData` (`engine/immutable/reader.go`) keeps the accumulated record or replaces it by another one, and answers
with a flag from which the caller takes the series.

* `combines_iff` — when every order ends with the best entry, with flags that name its source.
-/

namespace GeminiTS.Partials

open Lib List

inductive Call
  | min
  | max
  | first
  | last

inductive FieldType
  | integer
  | boolean
  | string

abbrev FieldType.Value : FieldType → Type
  | .integer => ℤ
  | .boolean => Bool
  | .string => Bytes

instance (ty : FieldType) : LinearOrder ty.Value :=
  match ty with
  | .integer => Int.instLinearOrder
  | .boolean => inferInstanceAs (LinearOrder Bool)
  | .string => inferInstanceAs (LinearOrder (List UInt8))

/-- A value with its time. -/
abbrev FieldType.Entry (ty : FieldType) := ty.Value × ℤ

/-- What the call reads of a record: the entry of the call in the metadata of the column, and the columns. -/
structure AggRecord (ty : FieldType) (C : Type*) where
  entry : Option ty.Entry
  colVals : C

/-! ### Two entries

The answers are: is the accumulated record replaced, and which flag is returned; `none` is a panic. -/

/-- The flag says what was done. -/
def swapIf (c : Prop) [Decidable c] : Bool × Bool := (decide c, decide c)

def minBool (new base : Bool) (newTime baseTime : ℤ) : Bool × Bool :=
  if (!base && !new) || (base && new) then swapIf (baseTime < newTime)
  else if !base then (true, false)
  else (false, true)

def maxBool (new base : Bool) (newTime baseTime : ℤ) : Bool × Bool :=
  if (!base && !new) || (base && new) then swapIf (baseTime < newTime)
  else if base then (true, true)
  else (false, false)

def minMeta : (ty : FieldType) → ty.Entry → ty.Entry → Option (Bool × Bool)
  | .integer, new, base => some (swapIf (new.1 > base.1 ∨ new.1 = base.1 ∧ new.2 > base.2))
  | .boolean, new, base => some (minBool new.1 base.1 new.2 base.2)
  | .string, _, _ => none

def maxMeta : (ty : FieldType) → ty.Entry → ty.Entry → Option (Bool × Bool)
  | .integer, new, base => some (swapIf (new.1 < base.1 ∨ new.1 = base.1 ∧ new.2 > base.2))
  | .boolean, new, base => some (maxBool new.1 base.1 new.2 base.2)
  | .string, _, _ => none

def compareMin : (ty : FieldType) → ty.Value → ty.Value → Bool
  | .integer, new, base => new < base
  | .string, new, base => new < base
  | .boolean, new, base => if (!base && !new) || (base && new) then false else !new

def firstMeta (ty : FieldType) (new base : ty.Entry) : Option (Bool × Bool) :=
  some (swapIf (new.2 > base.2 ∨ new.2 = base.2 ∧ compareMin ty new.1 base.1))

def lastMeta (ty : FieldType) (new base : ty.Entry) : Option (Bool × Bool) :=
  some (swapIf (new.2 < base.2 ∨ new.2 = base.2 ∧ compareMin ty new.1 base.1))

def compareMeta : Call → (ty : FieldType) → ty.Entry → ty.Entry → Option (Bool × Bool)
  | .min => minMeta
  | .max => maxMeta
  | .first => firstMeta
  | .last => lastMeta

variable {ty : FieldType} {C : Type*}

/-- Unset entries are handled before the comparison. -/
def compare (call : Call) (new base : AggRecord ty C) : Option (Bool × Bool) :=
  match new.entry, base.entry with
  | _, none => some (false, false)
  | none, some _ => some (true, true)
  | some n, some b => compareMeta call ty n b

def aggregateData (call : Call) (new base : AggRecord ty C) : Option (AggRecord ty C × Bool) :=
  (compare call new base).map fun r => (if r.1 then base else new, r.2)

/-! ### What is asked for -/

/-- The extreme value at its earliest time, or the largest value at the extreme time. -/
def better : Call → ty.Entry → ty.Entry → Prop
  | .min, a, b => a.1 < b.1 ∨ b.1 = a.1 ∧ a.2 < b.2
  | .max, a, b => b.1 < a.1 ∨ b.1 = a.1 ∧ a.2 < b.2
  | .first, a, b => a.2 < b.2 ∨ b.2 = a.2 ∧ b.1 < a.1
  | .last, a, b => b.2 < a.2 ∨ b.2 = a.2 ∧ b.1 < a.1

instance (call : Call) : DecidableRel (@better ty call) := fun a b => by
  cases call <;> exact instDecidableOr

instance (call : Call) : IsStrictTotalOrder ty.Entry (better call) where
  trichotomous a b h₁ h₂ := by
    cases call <;> grind [better, Prod.ext_iff]
  irrefl a := by
    cases call <;> grind [better]
  trans a b c := by
    cases call <;> grind [better]

/-- Two entries that are compared as asked for: not strings by `min` or `max`, nor different booleans by `min`. -/
def Fits : Call → (ty : FieldType) → ty.Entry → ty.Entry → Prop
  | .first, _, _, _ => True
  | .last, _, _, _ => True
  | _, .integer, _, _ => True
  | .min, .boolean, a, b => a.1 = b.1
  | .max, .boolean, _, _ => True
  | _, .string, _, _ => False

section

variable {call : Call} {a b c : ty.Entry}

theorem Fits.symm (h : Fits call ty a b) : Fits call ty b a := by
  cases call <;> cases ty <;> first | exact trivial | exact h.elim | exact Eq.symm h

theorem Fits.trans (hab : Fits call ty a b) (hbc : Fits call ty b c) : Fits call ty a c := by
  cases call <;> cases ty <;> first | exact trivial | exact hab.elim | exact Eq.trans hab hbc

theorem compareMin_iff {v w : ty.Value} : compareMin ty v w = true ↔ v < w := by
  cases ty with
  | integer | string => exact decide_eq_true_iff
  | boolean => revert v w; decide

theorem swapIf_iff {p q : Prop} [Decidable p] [Decidable q] (h : p ↔ q) {swap : Bool} :
    some (swapIf p) = some (swap, swap) ↔ True ∧ swap = decide q := by
  simp [swapIf, h, eq_comm]

theorem compareMeta_iff {swap : Bool} :
    compareMeta call ty a b = some (swap, swap) ↔ Fits call ty a b ∧ swap = decide (better call b a) := by
  obtain ⟨v, t⟩ := a
  obtain ⟨w, u⟩ := b
  cases call with
  | min =>
    cases ty with
    | integer => exact swapIf_iff Iff.rfl
    | boolean => cases v <;> cases w <;> simp [compareMeta, minMeta, minBool, swapIf, better, Fits, eq_comm]
    | string => simp [compareMeta, minMeta, Fits]
  | max =>
    cases ty with
    | integer => exact swapIf_iff Iff.rfl
    | boolean =>
      cases v <;> cases w <;> simp [compareMeta, maxMeta, maxBool, swapIf, better, Fits, Bool.lt_iff, eq_comm]
    | string => simp [compareMeta, maxMeta, Fits]
  | first | last => exact swapIf_iff (or_congr_right (and_congr_right fun _ => compareMin_iff))

theorem pairwise_fits_iff {es : List ty.Entry} : (a :: b :: es).Pairwise (Fits call ty) ↔
      Fits call ty a b ∧ (keep (better call) a b :: es).Pairwise (Fits call ty) := by
  simp only [pairwise_cons, forall_mem_cons, and_assoc]
  refine and_congr_right fun hab => ?_
  unfold keep
  split_ifs
  · exact ⟨fun h => h.2, fun h => ⟨fun x hx => hab.trans (h.1 x hx), h⟩⟩
  · exact ⟨fun h => ⟨h.1, h.2.2⟩, fun h => ⟨h.1, fun x hx => hab.symm.trans (h.1 x hx), h.2⟩⟩

end

/-! ### Records one after the other -/

/-- The records are combined in turn, and each flag says whether the accumulated record was replaced. -/
def Combines (call : Call) : AggRecord ty C → List (AggRecord ty C) → AggRecord ty C → Prop
  | new, [], rec => rec = new
  | new, base :: rest, rec => ∃ swap : Bool,
    compare call new base = some (swap, swap) ∧ Combines call (if swap then base else new) rest rec

/-- The entries that are set. -/
def entries (l : List (AggRecord ty C)) : List ty.Entry := l.filterMap AggRecord.entry

/-- The best of some entries. -/
def best (call : Call) : List ty.Entry → Option ty.Entry
  | [] => none
  | e :: es => some (extreme (better call) e es)

variable {call : Call} {new : AggRecord ty C} {rest : List (AggRecord ty C)}

theorem best_eq_some_iff {es : List ty.Entry} {e : ty.Entry} :
    best call es = some e ↔ e ∈ es ∧ ∀ x ∈ es, ¬ better call x e := by
  cases es with
  | nil => simp [best]
  | cons x es => rw [best, Option.some_inj, extreme_eq_iff, mem_cons, forall_mem_cons]

theorem entries_cons : entries (new :: rest) = new.entry.toList ++ entries rest := by
  rw [entries, filterMap_cons]
  cases new.entry <;> rfl

theorem exists_combines_iff : (∃ rec, Combines call new rest rec ∧ rec.entry = best call (entries (new :: rest))) ↔
      (entries (new :: rest)).Pairwise (Fits call ty) := by
  induction rest generalizing new with
  | nil => cases h : new.entry <;> simp [Combines, entries, best, h]
  | cons base rest ih =>
    cases hb : base.entry with
    | none => simpa [Combines, compare, hb, entries_cons] using @ih new
    | some b =>
      cases hn : new.entry with
      | none => simpa [Combines, compare, hb, hn, entries_cons] using @ih base
      | some a =>
        have hkept := @ih (if better call b a then base else new)
        have hentry : (if better call b a then base else new).entry = some (keep (better call) a b) := by
          unfold keep
          split_ifs
          · exact hb
          · exact hn
        rw [entries_cons, hentry] at hkept
        simp only [entries_cons, hn, hb, Option.toList_some, singleton_append, pairwise_fits_iff] at hkept ⊢
        rw [← hkept]
        simp [Combines, compare, hn, hb, compareMeta_iff, best, and_assoc]

/-- **Combining does not depend on the order**: every order ends with the best entry, with flags that name its source,
exactly if all entries are compared as asked for. -/
theorem combines_iff (l : List (AggRecord ty C)) :
    (∀ new rest, (new :: rest).Perm l → ∃ rec, Combines call new rest rec ∧
        ∀ e, rec.entry = some e ↔ e ∈ entries l ∧ ∀ x ∈ entries l, ¬ better call x e) ↔
      (entries l).Pairwise (Fits call ty) := by
  constructor
  · intro h
    cases l with
    | nil => exact .nil
    | cons new rest =>
      obtain ⟨rec, hrec, hbest⟩ := h new rest (.refl _)
      exact exists_combines_iff.mp ⟨rec, hrec, Option.ext fun e => (hbest e).trans best_eq_some_iff.symm⟩
  · intro h new rest hperm
    have he : (entries (new :: rest)).Perm (entries l) := hperm.filterMap _
    obtain ⟨rec, hrec, hbest⟩ := exists_combines_iff.mpr ((he.pairwise_iff Fits.symm).mpr h)
    refine ⟨rec, hrec, fun e => ?_⟩
    rw [hbest, best_eq_some_iff]
    simp only [he.mem_iff]

/-- The accumulated record is replaced, and the flag says it was not. -/
theorem aggregateData_minBool : aggregateData .min (⟨some (true, 1), 1⟩ : AggRecord .boolean ℕ) ⟨some (false, 2), 2⟩ =
      some (⟨some (false, 2), 2⟩, false) := rfl

end GeminiTS.Partials
