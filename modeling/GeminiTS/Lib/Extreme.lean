import Mathlib

/-!
# Extreme — the running minimum or maximum

A value is better than another if it is smaller in a strict total order `r`. A running value starts somewhere and is
replaced by each better one.

* `keep r m v` — one more value; `extreme r m vs` — a list of values.
-/

namespace GeminiTS.Lib

open List

variable {α β : Type*} (r : α → α → Prop) [DecidableRel r]

/-- The better of two values, the first one if neither is. -/
def keep (m v : α) : α := if r v m then v else m

/-- The best of a start and a list of values. -/
def extreme (m : α) (vs : List α) : α := vs.foldl (keep r) m

@[simp] theorem extreme_nil (m : α) : extreme r m [] = m := rfl

@[simp] theorem extreme_cons (m v : α) (vs : List α) : extreme r m (v :: vs) = extreme r (keep r m v) vs := rfl

theorem extreme_append (m : α) (vs vs' : List α) : extreme r m (vs ++ vs') = extreme r (extreme r m vs) vs' :=
  foldl_append

variable [IsStrictTotalOrder α r]

theorem not_rel_keep (m v : α) : ¬ r m (keep r m v) ∧ ¬ r v (keep r m v) := by
  unfold keep
  split_ifs with h
  · exact ⟨asymm_of r h, irrefl_of r v⟩
  · exact ⟨irrefl_of r m, h⟩

/-- The running value is one there is, and there is no better one. -/
theorem extreme_spec (m : α) (vs : List α) :
    (extreme r m vs = m ∨ extreme r m vs ∈ vs) ∧ ¬ r m (extreme r m vs) ∧ ∀ v ∈ vs, ¬ r v (extreme r m vs) := by
  induction vs generalizing m with
  | nil => exact ⟨.inl rfl, irrefl_of r m, fun v hv => absurd hv not_mem_nil⟩
  | cons v vs ih =>
    obtain ⟨hmem, hstart, hall⟩ := ih (keep r m v)
    obtain ⟨hm, hv⟩ := not_rel_keep r m v
    rw [extreme_cons]
    refine ⟨?_, IsOrderConnected.neg_trans hm hstart, forall_mem_cons.mpr ⟨IsOrderConnected.neg_trans hv hstart, hall⟩⟩
    rcases hmem with heq | hin
    · rw [heq, keep]
      split_ifs
      · exact .inr mem_cons_self
      · exact .inl rfl
    · exact .inr (mem_cons_of_mem _ hin)

/-- **The best value**: one there is, and there is no better one. -/
theorem extreme_eq_iff {m x : α} {vs : List α} :
    extreme r m vs = x ↔ (x = m ∨ x ∈ vs) ∧ ¬ r m x ∧ ∀ v ∈ vs, ¬ r v x := by
  constructor
  · rintro rfl
    exact extreme_spec r m vs
  · rintro ⟨hmem, hm, hall⟩
    obtain ⟨hmem', hm', hall'⟩ := extreme_spec r m vs
    apply Std.Trichotomous.trichotomous (r := r)
    · rcases hmem' with heq | hin
      · rw [heq]
        exact hm
      · exact hall _ hin
    · rcases hmem with rfl | hin
      · exact hm'
      · exact hall' x hin

theorem keep_extreme {m s : α} (h : ¬ r s m) (vs : List α) : keep r m (extreme r s vs) = extreme r m vs := by
  refine ((extreme_eq_iff r).mpr ⟨?_, ?_, fun v hv => ?_⟩).symm
  · unfold keep
    split_ifs with hr
    · refine .inr ((extreme_spec r s vs).1.resolve_left fun heq => ?_)
      rw [heq] at hr
      exact h hr
    · exact .inl rfl
  · exact (not_rel_keep r m _).1
  · exact IsOrderConnected.neg_trans ((extreme_spec r s vs).2.2 v hv) (not_rel_keep r m _).2

/-- If all values are better than the start, one of them is found. -/
theorem extreme_mem {s : α} {vs : List α} (h : ∀ v ∈ vs, r v s) (hne : vs ≠ []) : extreme r s vs ∈ vs := by
  obtain ⟨v, hv⟩ := exists_mem_of_ne_nil vs hne
  obtain ⟨hmem, -, hall⟩ := extreme_spec r s vs
  refine hmem.resolve_left fun heq => hall v hv ?_
  rw [heq]
  exact h v hv

/-! ### Machine integers -/

instance int64_lt : IsStrictTotalOrder Int64 (· < ·) := RelEmbedding.isStrictTotalOrder (s := ((· < ·) : ℤ → ℤ → Prop))
    ⟨⟨Int64.toInt, fun _ _ h => Int64.toInt_inj.mp h⟩, Int64.lt_iff_toInt_lt.symm⟩

instance int64_gt : IsStrictTotalOrder Int64 (· > ·) := RelEmbedding.isStrictTotalOrder (s := ((· > ·) : ℤ → ℤ → Prop))
    ⟨⟨Int64.toInt, fun _ _ h => Int64.toInt_inj.mp h⟩, Int64.lt_iff_toInt_lt.symm⟩

instance int8_lt : IsStrictTotalOrder Int8 (· < ·) := RelEmbedding.isStrictTotalOrder (s := ((· < ·) : ℤ → ℤ → Prop))
    ⟨⟨Int8.toInt, fun _ _ h => Int8.toInt_inj.mp h⟩, Int8.lt_iff_toInt_lt.symm⟩

instance int8_gt : IsStrictTotalOrder Int8 (· > ·) := RelEmbedding.isStrictTotalOrder (s := ((· > ·) : ℤ → ℤ → Prop))
    ⟨⟨Int8.toInt, fun _ _ h => Int8.toInt_inj.mp h⟩, Int8.lt_iff_toInt_lt.symm⟩

end GeminiTS.Lib
