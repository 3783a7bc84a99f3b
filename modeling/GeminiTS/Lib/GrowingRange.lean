import Mathlib

/-!
# GrowingRange — going through a set that grows meanwhile

`Ranges` is Go's loop over the keys of a map whose body adds keys: every key that was there at the start is visited
once, in any order; a key that is added during the loop may be visited or not, and at most once.

* `Ranges.invariant` — what every visit keeps holds at the end.
-/

namespace GeminiTS.Lib

open List

variable {σ κ : Type*}

/-- The loop, after visits of the keys `seen`: from one state to another. -/
inductive Ranges (keys : σ → List κ) (visit : κ → σ → σ) (start : List κ) : List κ → σ → σ → Prop
  | stop {seen : List κ} {s : σ} (h : ∀ k ∈ start, k ∈ seen) : Ranges keys visit start seen s s
  | next {seen : List κ} {s s' : σ} (k : κ) (hk : k ∈ keys s) (hnew : k ∉ seen)
    (h : Ranges keys visit start (k :: seen) (visit k s) s') : Ranges keys visit start seen s s'

namespace Ranges

variable {keys : σ → List κ} {visit : κ → σ → σ} {start seen : List κ} {s s' : σ}

theorem invariant {I : σ → Prop} (h : Ranges keys visit start seen s s') (h0 : I s)
    (hstep : ∀ s k, I s → k ∈ keys s → I (visit k s)) : I s' := by
  induction h with
  | stop _ => exact h0
  | next k hk _ _ ih => exact ih (hstep _ k h0 hk)

theorem visited {Q : κ → σ → Prop} (h : Ranges keys visit start seen s s') (hvisit : ∀ k s, Q k (visit k s))
    (hkeep : ∀ k k' s, Q k s → Q k (visit k' s)) (hseen : ∀ k ∈ seen, Q k s) : ∀ k ∈ start, Q k s' := by
  induction h with
  | stop hall => exact fun k hk => hseen k (hall k hk)
  | next k1 _ _ _ ih =>
    refine ih fun k hk => ?_
    rcases mem_cons.mp hk with rfl | hk
    · exact hvisit k _
    · exact hkeep k k1 _ (hseen k hk)

section Runs

variable (hkeep : ∀ k k' s, k ∈ keys s → k ∈ keys (visit k' s))

include hkeep

theorem prepend {ks : List κ} (hnodup : ks.Nodup) (hnew : ∀ k ∈ ks, k ∉ seen) (hkeys : ∀ k ∈ ks, k ∈ keys s)
    (h : Ranges keys visit start (ks.reverse ++ seen) (ks.foldl (fun s k => visit k s) s) s') :
    Ranges keys visit start seen s s' := by
  induction ks generalizing seen s with
  | nil => exact h
  | cons k ks ih =>
    obtain ⟨hk, hnodup⟩ := nodup_cons.mp hnodup
    refine .next k (hkeys k mem_cons_self) (hnew k mem_cons_self) (ih hnodup ?_ ?_ ?_)
    · intro k' hk' hmem
      rcases mem_cons.mp hmem with rfl | hmem
      · exact hk hk'
      · exact hnew k' (mem_cons_of_mem _ hk') hmem
    · exact fun k' hk' => hkeep k' k s (hkeys k' (mem_cons_of_mem _ hk'))
    · rwa [reverse_cons, append_assoc] at h

theorem of_start (hnodup : (keys s).Nodup) :
    Ranges keys visit (keys s) [] s ((keys s).foldl (fun s k => visit k s) s) := by
  refine prepend hkeep hnodup (fun _ _ => not_mem_nil) (fun _ hk => hk) (.stop fun k hk => ?_)
  rw [append_nil]
  exact mem_reverse.mpr hk

/-- The loop may visit a key that a visit of the start has added. -/
theorem exists_visit (hnodup : (keys s).Nodup) {k1 k2 : κ} (hk1 : k1 ∈ keys s) (hadd : ∀ s, k2 ∈ keys (visit k1 s))
    {Q : σ → Prop} (hvisit : ∀ s, Q (visit k2 s)) (hQ : ∀ k s, Q s → Q (visit k s)) :
    ∃ s', Ranges keys visit (keys s) [] s s' ∧ Q s' := by
  by_cases hk2 : k2 ∈ keys s
  · have hrun := of_start hkeep hnodup
    refine ⟨_, hrun, hrun.visited (Q := fun k s => k = k2 → Q s) ?_ ?_ (fun k hk => absurd hk not_mem_nil) k2 hk2 rfl⟩
    · rintro k s rfl
      exact hvisit s
    · exact fun k k' s h hk => hQ k' s (h hk)
  · refine ⟨_, prepend hkeep hnodup (fun _ _ => not_mem_nil) (fun _ hk => hk) (.next k2 ?_ ?_ (.stop ?_)), hvisit _⟩
    · -- The added key is there after all visits of the start.
      have hmem : ∀ (ks : List κ) s, k1 ∈ ks ∨ k2 ∈ keys s → k2 ∈ keys (ks.foldl (fun s k => visit k s) s) := by
        intro ks
        induction ks with
        | nil => exact fun s h => h.resolve_left not_mem_nil
        | cons k ks ih =>
          intro s h
          refine ih _ ?_
          rcases h with h | h
          · rcases mem_cons.mp h with rfl | h
            · exact .inr (hadd s)
            · exact .inl h
          · exact .inr (hkeep k2 k s h)
      exact hmem _ _ (.inl hk1)
    · rw [append_nil]
      exact fun h => hk2 (mem_reverse.mp h)
    · intro k hk
      rw [append_nil]
      exact mem_cons_of_mem _ (mem_reverse.mpr hk)

end Runs

end Ranges

end GeminiTS.Lib
