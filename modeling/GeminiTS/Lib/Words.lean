import Mathlib

/-!
# Words — a list cut at separators

`sep` says which elements separate.

* `words sep l` — the maximal runs without separators.
-/

namespace GeminiTS.Lib

open List

variable {α : Type*} (sep : α → Bool)

def words : List α → List (List α)
  | [] => []
  | a :: l =>
    if sep a then words l
    else (a :: l.takeWhile (! sep ·)) :: words (l.dropWhile (! sep ·))
termination_by l => l.length
decreasing_by
  · exact Nat.lt_succ_self _
  · exact Nat.lt_succ_of_le (length_dropWhile_le _ l)

@[simp] theorem words_nil : words sep [] = [] := by
  rw [words]

variable {sep}

variable {a s : α} (l : List α)

theorem words_cons_sep (ha : sep a = true) (l : List α) : words sep (a :: l) = words sep l := by
  rw [words, if_pos ha]

theorem words_cons (ha : sep a = false) (l : List α) :
    words sep (a :: l) = (a :: l.takeWhile (! sep ·)) :: words sep (l.dropWhile (! sep ·)) := by
  rw [words, if_neg (by rw [ha]; decide)]

section

variable (hs : sep s = true) (l' : List α)

include hs

theorem takeWhile_append_sep : (l ++ s :: l').takeWhile (! sep ·) = l.takeWhile (! sep ·) := by
  induction l with
  | nil => exact takeWhile_cons_of_neg (by rw [hs]; decide)
  | cons a l ih =>
    rw [cons_append, takeWhile_cons, takeWhile_cons, ih]

theorem dropWhile_append_sep : (l ++ s :: l').dropWhile (! sep ·) = l.dropWhile (! sep ·) ++ s :: l' := by
  induction l with
  | nil => exact dropWhile_cons_of_neg (by rw [hs]; decide)
  | cons a l ih =>
    rw [cons_append, dropWhile_cons, dropWhile_cons, ih]
    split <;> rfl

theorem words_append_sep : words sep (l ++ s :: l') = words sep l ++ words sep l' := by
  fun_induction words sep l with
  | case1 => rw [nil_append, words_cons_sep hs, nil_append]
  | case2 a l ha ih => rw [cons_append, words_cons_sep ha, ih]
  | case3 a l ha ih =>
    rw [Bool.not_eq_true] at ha
    rw [cons_append, words_cons ha, takeWhile_append_sep l hs, dropWhile_append_sep l hs, ih, cons_append]

end

variable (sep)

/-- Two lists meet at an end or at a separator. -/
def Bounded (l l' : List α) : Prop := l = [] ∨ l' = [] ∨ (∃ a ∈ l.getLast?, sep a = true) ∨ ∃ a ∈ l'.head?, sep a = true

variable {sep}

/-- **The words of two lists that meet at an end or at a separator.** -/
theorem words_append {l l' : List α} (h : Bounded sep l l') : words sep (l ++ l') = words sep l ++ words sep l' := by
  rcases h with rfl | rfl | ⟨a, ha, hsep⟩ | ⟨a, ha, hsep⟩
  · rw [words_nil, nil_append, nil_append]
  · rw [words_nil, append_nil, append_nil]
  · obtain ⟨l0, rfl⟩ := getLast?_eq_some_iff.mp ha
    rw [append_assoc, singleton_append, words_append_sep l0 hsep, words_append_sep l0 hsep, words_nil, append_nil]
  · obtain ⟨l0, rfl⟩ := head?_eq_some_iff.mp ha
    rw [words_append_sep l hsep, words_cons_sep hsep]

end GeminiTS.Lib
