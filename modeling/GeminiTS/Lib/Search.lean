import Mathlib

/-!
# Search — binary search that stops early at an exact match

`bsearch cmp xs fuel start stop` halves the window `[start, stop)` of `xs`; `cmp x` says on which
side of the target `x` lies. It answers with the position reached and whether the target itself
was met there.

* `Located cmp xs start i` — position `i` splits `xs`, from `start` on, into the elements before
  the target and the others.
-/

namespace GeminiTS.Lib

open List

variable {α : Type*}

/-- Binary search in the window `[start, stop)`; the flag tells an exact match. -/
def bsearch (cmp : α → Ordering) (xs : List α) : ℕ → ℕ → ℕ → ℕ × Bool
  | 0, start, _ => (start, false)
  | fuel + 1, start, stop =>
    if start < stop then
      let mid := (start + (stop - 1)) / 2
      match xs[mid]? with
      | none => (start, false)
      | some x =>
        match cmp x with
        | .eq => (mid, true)
        | .lt => bsearch cmp xs fuel (mid + 1) stop
        | .gt => bsearch cmp xs fuel start mid
    else (start, false)

/-- The elements of `xs` come in the order of `cmp`, at most one of them being the target. -/
def InOrder (cmp : α → Ordering) (xs : List α) : Prop := xs.Pairwise fun x y => cmp y ≠ .gt → cmp x = .lt

/-- From `start` on, exactly the elements in front of `i` lie before the target. -/
structure Located (cmp : α → Ordering) (xs : List α) (start i : ℕ) : Prop where
  start_le : start ≤ i
  le_length : i ≤ xs.length
  lt_of_lt : ∀ j x, start ≤ j → j < i → xs[j]? = some x → cmp x = .lt
  ne_lt_of_le : ∀ j x, i ≤ j → xs[j]? = some x → cmp x ≠ .lt

section

variable {cmp : α → Ordering} {xs : List α}

variable (h : InOrder cmp xs)

include h

variable {i j : ℕ} {x y : α}

theorem InOrder.lt_of_lt (hij : i < j) (hx : xs[i]? = some x) (hy : xs[j]? = some y) (hc : cmp y ≠ .gt) :
    cmp x = .lt := by
  obtain ⟨hi, rfl⟩ := List.getElem?_eq_some_iff.mp hx
  obtain ⟨hj, rfl⟩ := List.getElem?_eq_some_iff.mp hy
  exact (pairwise_iff_getElem.mp h) i j hi hj hij hc

/-- An element before the target has only such elements in front of it. -/
theorem InOrder.lt_of_le (hij : i ≤ j) (hx : xs[i]? = some x) (hy : xs[j]? = some y) (hc : cmp y = .lt) :
    cmp x = .lt := by
  rcases Nat.eq_or_lt_of_le hij with rfl | hij
  · rwa [Option.some.inj (hx.symm.trans hy)]
  · exact h.lt_of_lt hij hx hy (by simp [hc])

theorem InOrder.gt_of_le (hij : i ≤ j) (hx : xs[i]? = some x) (hy : xs[j]? = some y) (hc : cmp x = .gt) :
    cmp y = .gt := by
  rcases Nat.eq_or_lt_of_le hij with rfl | hij
  · rwa [← Option.some.inj (hx.symm.trans hy)]
  · by_contra hg
    exact absurd (h.lt_of_lt hij hx hy hg) (by simp [hc])

/-- The window invariant: everything in front of it is before the target, everything behind it
is past the target. -/
theorem bsearch_spec {start0 : ℕ} : ∀ (fuel start stop : ℕ), stop - start < fuel → start0 ≤ start → start ≤ stop →
      stop ≤ xs.length → (∀ j x, start0 ≤ j → j < start → xs[j]? = some x → cmp x = .lt) →
      (∀ j x, stop ≤ j → xs[j]? = some x → cmp x = .gt) →
      Located cmp xs start0 (bsearch cmp xs fuel start stop).1 ∧ ((bsearch cmp xs fuel start stop).2 = true ↔
          ∃ x, xs[(bsearch cmp xs fuel start stop).1]? = some x ∧ cmp x = .eq) := by
  intro fuel
  induction fuel with
  | zero => intro start stop hf; omega
  | succ fuel ih =>
    intro start stop hf h0 hle hlen hlo hhi
    unfold bsearch
    by_cases hlt : start < stop
    · rw [if_pos hlt]
      have hmid : (start + (stop - 1)) / 2 < xs.length := by omega
      have hget := getElem?_eq_getElem hmid
      simp only [hget]
      cases hc : cmp xs[(start + (stop - 1)) / 2] with
      | eq =>
        refine ⟨⟨by simp only; omega, by simp only; omega, fun j x hj hjm hx => ?_, fun j x hj hx => ?_⟩,
          fun _ => ⟨_, hget, hc⟩, fun _ => rfl⟩
        · exact h.lt_of_lt hjm hx hget (by simp [hc])
        · exact fun hlt => absurd (h.lt_of_le hj hget hx hlt) (by simp [hc])
      | lt =>
        refine ih _ _ (by omega) (by omega) (by omega) hlen (fun j x hj hjm hx => ?_) hhi
        exact h.lt_of_le (Nat.le_of_lt_succ hjm) hx hget hc
      | gt =>
        refine ih _ _ (by omega) h0 (by omega) (by omega) hlo fun j x hj hx => ?_
        exact h.gt_of_le hj hget hx hc
    · rw [if_neg hlt]
      have hs : start = stop := by omega
      refine ⟨⟨h0, by simp only; omega, hlo, ?_⟩, ?_⟩
      · intro j x hj hx
        simp [hhi j x (hs ▸ hj) hx]
      · constructor
        · intro hf; cases hf
        · rintro ⟨x, hx, hc⟩
          simp [hhi start x (by omega) hx] at hc

end

end GeminiTS.Lib
