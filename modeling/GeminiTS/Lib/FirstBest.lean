import Mathlib

/-!
# FirstBest — the first of the best entries of a list

Entries are values with a label. An entry is better than another if its value is smaller in a strict
total order `r`; of equally good entries the first one is kept.

* `pick r acc p` — the entry kept after one more entry; `firstBest r l` — the entry kept of a list.
-/

namespace GeminiTS.Lib

open List

variable {α β γ : Type*} (r : α → α → Prop) [DecidableRel r]

/-- Keep the better of two entries, the first one if neither is better. -/
def pick : Option (α × β) → α × β → Option (α × β)
  | none, p => some p
  | some q, p => if r p.1 q.1 then some p else some q

/-- The first of the best entries. -/
def firstBest (l : List (α × β)) : Option (α × β) := l.foldl (pick r) none

/-- The better of two results. -/
def pickBest (a b : Option (α × β)) : Option (α × β) := b.elim a (pick r a)

@[simp] theorem firstBest_nil : firstBest r ([] : List (α × β)) = none := rfl

@[simp] theorem pickBest_none (a : Option (α × β)) : pickBest r a none = a := rfl

@[simp] theorem pickBest_some (a : Option (α × β)) (p : α × β) : pickBest r a (some p) = pick r a p := rfl

@[simp] theorem none_pickBest (b : Option (α × β)) : pickBest r none b = b := by
  cases b <;> rfl

/-- Labels do not matter, nor do values that are compared in the same way. -/
theorem firstBest_prodMap {δ : Type*} {r' : δ → δ → Prop} [DecidableRel r'] {g : δ → α}
    (hg : ∀ a b, r (g a) (g b) ↔ r' a b) (f : β → γ) (l : List (δ × β)) :
    firstBest r (l.map (Prod.map g f)) = (firstBest r' l).map (Prod.map g f) := by
  have hpick (acc : Option (δ × β)) p :
      pick r (acc.map (Prod.map g f)) (Prod.map g f p) = (pick r' acc p).map (Prod.map g f) := by
    cases acc with
    | none => rfl
    | some q =>
      simp only [Option.map_some, pick, Prod.map_fst, hg]
      split_ifs <;> rfl
  rw [firstBest, foldl_map]
  show l.foldl _ (none.map (Prod.map g f)) = _
  exact foldl_hom _ hpick

theorem firstBest_map (f : β → γ) (l : List (α × β)) :
    firstBest r (l.map fun p => (p.1, f p.2)) = (firstBest r l).map (Prod.map id f) :=
  firstBest_prodMap r (g := id) (fun _ _ => Iff.rfl) f l

variable [IsStrictTotalOrder α r]

theorem pickBest_pick (a : Option (α × β)) (p q : α × β) :
    pickBest r a (pick r (some p) q) = pick r (pick r a p) q := by
  cases a with
  | none => exact none_pickBest r _
  | some x =>
    by_cases hqp : r q.1 p.1
    · by_cases hpx : r p.1 x.1
      · simp [pick, hqp, hpx, trans_of r hqp hpx]
      · simp [pick, hqp, hpx]
    · by_cases hpx : r p.1 x.1
      · simp [pick, hqp, hpx]
      · simp [pick, hqp, hpx, IsOrderConnected.neg_trans hqp hpx]

theorem foldl_pick (acc : Option (α × β)) (l : List (α × β)) :
    l.foldl (pick r) acc = pickBest r acc (firstBest r l) := by
  induction l using reverseRecOn with
  | nil => rfl
  | append_singleton l p ih =>
    rw [firstBest, foldl_append, foldl_append, ih, ← firstBest]
    cases firstBest r l with
    | none => rfl
    | some q => exact (pickBest_pick r acc q p).symm

theorem firstBest_append (l1 l2 : List (α × β)) :
    firstBest r (l1 ++ l2) = pickBest r (firstBest r l1) (firstBest r l2) := by
  rw [firstBest, foldl_append, foldl_pick]
  rfl

theorem firstBest_cons (p : α × β) (l : List (α × β)) : firstBest r (p :: l) = pickBest r (some p) (firstBest r l) :=
  firstBest_append r [p] l

variable {l : List (α × β)}

theorem firstBest_isSome : (firstBest r l).isSome ↔ l ≠ [] := by
  cases l with
  | nil => simp
  | cons p l =>
    rw [firstBest_cons]
    cases firstBest r l with
    | none => simp
    | some q =>
      simp only [pickBest_some, pick]
      split_ifs <;> simp

/-- **The first best entry**: all before it are worse, none after it is better. -/
theorem exists_of_firstBest {p : α × β} (h : firstBest r l = some p) :
    ∃ l1 l2, l = l1 ++ p :: l2 ∧ (∀ q ∈ l1, r p.1 q.1) ∧ ∀ q ∈ l2, ¬ r q.1 p.1 := by
  induction l generalizing p with
  | nil => exact absurd h (by simp)
  | cons x l ih =>
    rw [firstBest_cons] at h
    cases hl : firstBest r l with
    | none =>
      have hnil : l = [] := by
        by_contra hne
        have := (firstBest_isSome r).mpr hne
        simp [hl] at this
      rw [hl] at h
      cases h
      exact ⟨[], l, rfl, fun q hq => absurd hq not_mem_nil, by simp [hnil]⟩
    | some q =>
      rw [hl, pickBest_some, pick] at h
      obtain ⟨l1, l2, hsplit, hbefore, hafter⟩ := ih hl
      split_ifs at h with hqx
      · cases h
        exact ⟨x :: l1, l2, by rw [hsplit]; rfl, forall_mem_cons.mpr ⟨hqx, hbefore⟩, hafter⟩
      · cases h
        refine ⟨[], l, rfl, fun q hq => absurd hq not_mem_nil, fun y hy => ?_⟩
        rw [hsplit, mem_append, mem_cons] at hy
        rcases hy with hy | rfl | hy
        · exact fun hyx => hqx (trans_of r (hbefore y hy) hyx)
        · exact hqx
        · exact IsOrderConnected.neg_trans (hafter y hy) hqx

theorem mem_of_firstBest {p : α × β} (h : firstBest r l = some p) : p ∈ l := by
  obtain ⟨l1, l2, rfl, -, -⟩ := exists_of_firstBest r h
  simp

theorem firstBest_eq_some {p : α × β} : firstBest r l = some p ↔
      ∃ l1 l2, l = l1 ++ p :: l2 ∧ (∀ q ∈ l1, r p.1 q.1) ∧ ∀ q ∈ l2, ¬ r q.1 p.1 := by
  refine ⟨exists_of_firstBest r, ?_⟩
  rintro ⟨l1, l2, rfl, hbefore, hafter⟩
  have htail : firstBest r (p :: l2) = some p := by
    rw [firstBest_cons]
    cases h : firstBest r l2 with
    | none => rfl
    | some q => rw [pickBest_some, pick, if_neg (hafter q (mem_of_firstBest r h))]
  rw [firstBest_append, htail, pickBest_some]
  cases h : firstBest r l1 with
  | none => rfl
  | some q => rw [pick, if_pos (hbefore q (mem_of_firstBest r h))]

section

variable [DecidableEq α] {m : α} (hm : ∀ p ∈ l, p.1 = m ∨ r p.1 m)

include hm

/-- Leaving out the entries of a value that no other is worse than. -/
theorem firstBest_filter_ne : firstBest r (l.filter fun p => p.1 ≠ m) = (firstBest r l).filter fun p => p.1 ≠ m := by
  induction l with
  | nil => rfl
  | cons x l ih =>
    have ih := ih fun p hp => hm p (mem_cons_of_mem _ hp)
    by_cases hx : x.1 = m
    · rw [filter_cons_of_neg (by simpa using hx), ih, firstBest_cons]
      cases hl : firstBest r l with
      | none => simp [Option.filter, hx]
      | some q =>
        rw [pickBest_some, pick, hx]
        rcases hm q (mem_cons_of_mem _ (mem_of_firstBest r hl)) with hq | hq
        · rw [if_neg (hq ▸ irrefl_of r m)]
          simp [Option.filter, hq, hx]
        · rw [if_pos hq]
    · have hxm : r x.1 m := (hm x mem_cons_self).resolve_left hx
      rw [filter_cons_of_pos (by simpa using hx), firstBest_cons, firstBest_cons, ih]
      cases hl : firstBest r l with
      | none => simp [Option.filter, hx]
      | some q =>
        by_cases hq : q.1 = m
        · have hmx : ¬ r m x.1 := asymm_of r hxm
          simp [Option.filter, pick, hq, hmx, hx]
        · by_cases hqx : r q.1 x.1 <;> simp [Option.filter, pick, hq, hqx, hx]

/-- An entry of another value makes the left out ones irrelevant. -/
theorem firstBest_filter_ne_of_exists (hex : ∃ p ∈ l, p.1 ≠ m) :
    firstBest r (l.filter fun p => p.1 ≠ m) = firstBest r l := by
  rw [firstBest_filter_ne r hm]
  cases h : firstBest r l with
  | none => rfl
  | some q =>
    obtain ⟨p, hp, hpm⟩ := hex
    have hq : q.1 ≠ m := by
      rintro hqm
      obtain ⟨l1, l2, rfl, hbefore, hafter⟩ := exists_of_firstBest r h
      have hpr : r p.1 q.1 := hqm ▸ (hm p hp).resolve_left hpm
      rw [mem_append, mem_cons] at hp
      rcases hp with hp | rfl | hp
      · exact asymm_of r hpr (hbefore p hp)
      · exact hpm hqm
      · exact hafter p hp hpr
    simp [hq]

end

/-! ### Smallest and greatest values -/

/-- The order in which smaller (`isMin`) or greater values are better. -/
def beats {α : Type*} [LT α] (isMin : Bool) (a b : α) : Prop := if isMin then a < b else b < a

instance {α : Type*} [LinearOrder α] (isMin : Bool) : DecidableRel (beats isMin : α → α → Prop) := fun a b =>
    match isMin with
    | true => inferInstanceAs (Decidable (a < b))
    | false => inferInstanceAs (Decidable (b < a))

instance {α : Type*} [LinearOrder α] (isMin : Bool) : IsStrictTotalOrder α (beats isMin : α → α → Prop) :=
  match isMin with
  | true => inferInstanceAs (IsStrictTotalOrder α (· < ·))
  | false => inferInstanceAs (IsStrictTotalOrder α (· > ·))

@[simp] theorem beats_true {α : Type*} [LT α] {a b : α} : beats true a b ↔ a < b := Iff.rfl

@[simp] theorem beats_false {α : Type*} [LT α] {a b : α} : beats false a b ↔ b < a := Iff.rfl

end GeminiTS.Lib
