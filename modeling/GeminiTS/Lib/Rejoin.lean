import Mathlib

/-!
# Rejoin — the runs of a list, element by element

Whether an element goes on with the next one is asked of the element and of what comes next, which may be nothing.

* `rejoin` — the runs that are complete.
-/

namespace GeminiTS.Lib

open List

variable {α : Type*}

/-- The runs that end in a list, after the elements of the run so far. -/
def rejoin (goesOn : α → Option α → Bool) : List α → List α → List (List α)
  | _, [] => []
  | held, x :: l =>
    if goesOn x l.head? then rejoin goesOn (held ++ [x]) l else (held ++ [x]) :: rejoin goesOn [] l

section Rejoin

variable {goesOn : α → Option α → Bool}

theorem rejoin_append {g : List α} {x : α} (hg : g.IsChain fun x y => goesOn x (some y)) (hx : g.getLast? = some x)
    (held l : List α) : rejoin goesOn held (g ++ l) =
      if goesOn x l.head? then rejoin goesOn (held ++ g) l else (held ++ g) :: rejoin goesOn [] l := by
  induction g generalizing held with
  | nil => exact absurd hx (by simp)
  | cons y g ih =>
    cases g with
    | nil =>
      cases hx
      rfl
    | cons z g =>
      have hchain := isChain_cons_cons.mp hg
      rw [cons_append, rejoin, cons_append, head?_cons, if_pos hchain.1, ← cons_append,
        ih hchain.2 (by rwa [getLast?_cons_cons] at hx), append_assoc, singleton_append]

/-- **The complete runs are those of the list split where it does not go on**, without one that goes on at the end. -/
theorem splitBy_filter (hmore : ∀ x y, goesOn x none = true → goesOn x (some y) = true) (held l : List α)
    (hheld : held.IsChain fun x y => goesOn x (some y)) (hnext : ∀ x ∈ held.getLast?, goesOn x l.head? = true) :
    ((held ++ l).splitBy fun x y => goesOn x (some y)).filter (fun run => run.getLast?.all fun x => !goesOn x none) =
      rejoin goesOn held l := by
  induction l generalizing held with
  | nil =>
    rcases eq_nil_or_concat held with rfl | ⟨init, x, rfl⟩
    · rfl
    · have hx := hnext x (by simp)
      rw [append_nil, splitBy_of_isChain (by simp) hheld]
      simp [rejoin, show goesOn x none = true from hx]
  | cons x l ih =>
    have hrun : (held ++ [x]).IsChain fun x y => goesOn x (some y) :=
      isChain_append.mpr ⟨hheld, isChain_singleton x, fun y hy z hz => by
        cases Option.some.inj hz
        exact hnext y hy⟩
    rw [← singleton_append, ← append_assoc, singleton_append, rejoin]
    split_ifs with hx
    · refine ih (held ++ [x]) hrun fun y hy => ?_
      rw [getLast?_concat, Option.mem_some_iff] at hy
      exact hy ▸ hx
    · have hlast : goesOn x none = false := by
        cases h : l.head? with
        | none => simpa [h] using hx
        | some y =>
          rw [h] at hx
          exact Bool.eq_false_iff.mpr (mt (hmore x y) hx)
      have hcut : ∀ y ∈ (held ++ [x]).getLast?, ∀ z ∈ l.head?, goesOn y (some z) = false := by
        intro y hy z hz
        rw [getLast?_concat, Option.mem_some_iff] at hy
        rw [Option.mem_def.mp hz] at hx
        exact hy ▸ Bool.eq_false_iff.mpr hx
      have hrest := ih [] isChain_nil fun y hy => absurd hy (by simp)
      rw [splitBy_append hcut, splitBy_of_isChain (by simp) hrun, singleton_append,
        filter_cons_of_pos (by simp [hlast])]
      exact congrArg _ hrest

end Rejoin

section Separated

variable {κ : Type*} [LinearOrder κ] {key : α → κ}

/-- Runs of a sorted list that is cut only where the key changes. -/
theorem splitBy_separated {r : α → α → Bool} {l : List α} (hs : l.Pairwise fun x y => key x ≤ key y)
    (hr : ∀ x y, r x y = false → key x ≠ key y) :
    (l.splitBy r).Pairwise fun a b => ∀ x ∈ a, ∀ y ∈ b, key x < key y := by
  have hsep : ∀ runs : List (List α), runs.flatten.Pairwise (fun x y => key x ≤ key y) →
      runs.IsChain (fun a b => ∃ ha hb, r (a.getLast ha) (b.head hb) = false) →
      runs.Pairwise fun a b => ∀ x ∈ a, ∀ y ∈ b, key x < key y := by
    intro runs
    induction runs with
    | nil => exact fun _ _ => .nil
    | cons a runs ih =>
      intro hsorted hcut
      rw [flatten_cons, pairwise_append] at hsorted
      refine pairwise_cons.mpr ⟨fun b hb x hx y hy => ?_, ih hsorted.2.1 hcut.tail⟩
      cases runs with
      | nil => exact absurd hb not_mem_nil
      | cons c runs =>
        obtain ⟨ha, hc, hbreak⟩ := (isChain_cons_cons.mp hcut).1
        have hne : (c :: runs).flatten ≠ [] := by simp [hc]
        have hhead : (c :: runs).flatten.head hne = c.head hc := by
          simp only [flatten_cons, head_append_of_ne_nil hc]
        have hy' : y ∈ (c :: runs).flatten := mem_flatten.mpr ⟨b, hb, hy⟩
        calc key x ≤ key (a.getLast ha) := hsorted.1.rel_getLast hx
          _ < key (c.head hc) := by
            refine lt_of_le_of_ne ?_ (hr _ _ hbreak)
            exact hsorted.2.2 _ (getLast_mem ha) _ (hhead ▸ head_mem hne)
          _ ≤ key y := hhead ▸ hsorted.2.1.rel_head hy'
  refine hsep _ ?_ (isChain_getLast_head_splitBy r l)
  rwa [flatten_splitBy]

end Separated

end GeminiTS.Lib
