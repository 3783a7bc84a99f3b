import Mathlib

/-!
# Lists — going through lists

* `map_of_mapM` — a fallible function succeeds with the list of the values.
* `lastMatch p l` — the last element of `l` with `p`.
-/

namespace GeminiTS.Lib

open List

section Traverse

variable {α β : Type} {f : α → Option β} {l : List α}

theorem map_of_mapM {bs : List β} (h : l.mapM f = some bs) : l.map f = bs.map some := by
  induction l generalizing bs with
  | nil =>
    cases h
    rfl
  | cons x l ih =>
    simp only [mapM_cons, Option.bind_eq_bind, Option.bind_eq_some_iff, Option.pure_def, Option.some_inj] at h
    obtain ⟨b, hb, cs, hcs, rfl⟩ := h
    rw [map_cons, hb, ih hcs, map_cons]

theorem exists_of_mem_mapM {bs : List β} (h : l.mapM f = some bs) {b : β} (hb : b ∈ bs) : ∃ a ∈ l, f a = some b :=
  mem_map.mp (map_of_mapM h ▸ mem_map_of_mem hb)

theorem mapM_eq_none : l.mapM f = none ↔ ∃ x ∈ l, f x = none := by
  induction l with
  | nil => exact ⟨fun h => (by cases h), fun ⟨x, hx, _⟩ => absurd hx not_mem_nil⟩
  | cons x l ih =>
    rw [mapM_cons, exists_mem_cons_iff, ← ih]
    cases f x with
    | none => exact iff_of_true rfl (.inl rfl)
    | some b =>
      cases l.mapM f with
      | none => exact iff_of_true rfl (.inr rfl)
      | some bs => exact iff_of_false (by rintro ⟨⟩) fun h => h.elim (fun h => by cases h) fun h => by cases h

theorem mapM_eq_self_iff {f : α → Option α} : l.mapM f = some l ↔ ∀ x ∈ l, f x = some x := by
  refine ⟨fun h => map_inj_left.mp (map_of_mapM h), fun h => ?_⟩
  induction l with
  | nil => rfl
  | cons x l ih =>
    rw [mapM_cons, h x mem_cons_self, ih fun y hy => h y (mem_cons_of_mem _ hy)]
    rfl

theorem modify_length_append {γ : Type*} (as bs : List γ) (b : γ) (f : γ → γ) :
    (as ++ b :: bs).modify as.length f = as ++ f b :: bs := by
  induction as with
  | nil => rfl
  | cons a as ih => exact congrArg (a :: ·) ih

end Traverse

/-! ### Two lists related element by element -/

section Pointwise

variable {α β γ : Type*} {R R' : α → β → Prop} {as : List α} {bs : List β}

variable (hR : List.Forall₂ R as bs)

include hR

/-- From a fact about each pair, a fact about the lists of images. -/
theorem map_eq_of_forall₂ {g : β → γ} {h : α → γ} (hgh : ∀ a ∈ as, ∀ b, R a b → g b = h a) : bs.map g = as.map h := by
  induction hR with
  | nil => rfl
  | cons hab _ ih =>
    rw [map_cons, map_cons, hgh _ (by simp) _ hab, ih fun a ha => hgh a (mem_cons_of_mem _ ha)]

/-- A step on the right-hand elements that turns one relation into another. -/
theorem forall₂_step {g : β → β} (hg : ∀ a ∈ as, ∀ b, R a b → R' a (g b)) : List.Forall₂ R' as (bs.map g) := by
  induction hR with
  | nil => exact .nil
  | cons hab _ ih =>
    exact .cons (hg _ (by simp) _ hab) (ih fun a ha => hg a (mem_cons_of_mem _ ha))

theorem exists_of_mem_right {b : β} (hb : b ∈ bs) : ∃ a ∈ as, R a b := by
  induction hR with
  | nil => simp at hb
  | cons hab _ ih =>
    rcases mem_cons.mp hb with rfl | hb
    · exact ⟨_, mem_cons_self, hab⟩
    · obtain ⟨a, ha, h⟩ := ih hb
      exact ⟨a, mem_cons_of_mem _ ha, h⟩

end Pointwise

/-! ### Searching a list from its end -/

section LastMatch

variable {α β : Type*}

/-- The last element with `p`. -/
def lastMatch (p : α → Bool) (l : List α) : Option α := l.reverse.find? p

variable {p : α → Bool} {a b l : List α} {x : α}

theorem lastMatch_append : lastMatch p (a ++ b) = (lastMatch p b).or (lastMatch p a) := by
  rw [lastMatch, reverse_append, find?_append]
  rfl

theorem lastMatch_cons : lastMatch p (x :: l) = (lastMatch p l).or (if p x then some x else none) := by
  rw [← singleton_append, lastMatch_append]
  congr 1
  rw [lastMatch, reverse_singleton, find?_singleton]

theorem lastMatch_eq_none : lastMatch p l = none ↔ ∀ x ∈ l, ¬ p x := by
  rw [lastMatch, find?_eq_none]
  simp only [mem_reverse]

theorem lastMatch_eq_some : lastMatch p l = some x ↔ p x ∧ ∃ a b, l = a ++ x :: b ∧ ∀ y ∈ b, ¬ p y := by
  rw [lastMatch, find?_eq_some_iff_append]
  refine and_congr_right fun _ => ⟨?_, ?_⟩
  · rintro ⟨b, a, hl, hb⟩
    exact ⟨a.reverse, b.reverse, by rw [← reverse_reverse l, hl]; simp, by simpa using hb⟩
  · rintro ⟨a, b, rfl, hb⟩
    exact ⟨b.reverse, a.reverse, by simp, by simpa using hb⟩

theorem mem_of_lastMatch (h : lastMatch p l = some x) : x ∈ l := by
  obtain ⟨-, a, b, rfl, -⟩ := lastMatch_eq_some.mp h
  exact mem_append_right _ mem_cons_self

/-- An element that stays the last one when elements are changed or dropped and no new one matches. -/
theorem lastMatch_filterMap {q : β → Bool} {f : α → Option β} {x' : β} (h : lastMatch p l = some x)
    (hf : f x = some x') (hq : q x' = true) (hold : ∀ y ∈ l, ∀ y', f y = some y' → q y' = true → p y = true) :
    lastMatch q (l.filterMap f) = some x' := by
  obtain ⟨-, a, b, rfl, hb⟩ := lastMatch_eq_some.mp h
  refine lastMatch_eq_some.mpr ⟨hq, a.filterMap f, b.filterMap f, ?_, fun y' hy' hqy => ?_⟩
  · rw [filterMap_append, filterMap_cons_some hf]
  · obtain ⟨y, hy, hfy⟩ := mem_filterMap.mp hy'
    exact hb y hy (hold y (mem_append_right _ (mem_cons_of_mem _ hy)) y' hfy hqy)

theorem lastMatch_insert_of_neg (hx : ¬ p x) : lastMatch p (a ++ x :: b) = lastMatch p (a ++ b) := by
  rw [lastMatch_append, lastMatch_cons, lastMatch_append, if_neg hx, Option.or_none]

theorem lastMatch_insert_of_pos (hx : p x) : lastMatch p (a ++ x :: b) = (lastMatch p b).or (some x) := by
  rw [lastMatch_append, lastMatch_cons, if_pos hx]
  cases lastMatch p b <;> rfl

end LastMatch

end GeminiTS.Lib
