import Mathlib

/-!
# Extract — ranges and pieces of a list, and 64-bit integers

* `List.extract l start stop` — the elements at positions `[start, stop)`; how ranges are joined
  (`extract_append_extract`), taken apart (`extract_eq_cons`) and measured (`length_extract`).
* `splitEvery n l` — pieces of `n` elements; only the last one may be shorter.
-/

namespace GeminiTS.Lib

open List

variable {α : Type*}

variable (l : List α)

theorem length_extract (start stop : ℕ) : (l.extract start stop).length = min (stop - start) (l.length - start) := by
  rw [extract_eq_take_drop, length_take, length_drop]

theorem extract_of_le {start stop : ℕ} (h : stop ≤ start) : l.extract start stop = [] := by
  rw [extract_eq_take_drop, Nat.sub_eq_zero_of_le h, take_zero]

variable {n a b : ℕ} {x : α}

theorem extract_append_extract {c : ℕ} (hab : a ≤ b) (hbc : b ≤ c) :
    l.extract a b ++ l.extract b c = l.extract a c := by
  simp only [extract_eq_take_drop]
  have hc : c - a = (b - a) + (c - b) := by omega
  have hb : l.drop b = (l.drop a).drop (b - a) := by rw [drop_drop]; congr 1; omega
  rw [hc, hb, take_add]

theorem extract_eq_cons (hab : a < b) (ha : a < l.length) : l.extract a b = l[a] :: l.extract (a + 1) b := by
  have hb : b - a = (b - (a + 1)) + 1 := by omega
  rw [extract_eq_take_drop, drop_eq_getElem_cons ha, hb, take_succ_cons, extract_eq_take_drop]

theorem extract_length (a : ℕ) : l.extract a l.length = l.drop a := by
  rw [extract_eq_take_drop, take_of_length_le (by simp)]

theorem mem_extract {l : List α} : x ∈ l.extract a b ↔ ∃ i, a ≤ i ∧ i < b ∧ l[i]? = some x := by
  rw [extract_eq_take_drop, mem_iff_getElem?]
  constructor
  · rintro ⟨i, hi⟩
    rw [getElem?_take] at hi
    split_ifs at hi with hlt
    exact ⟨a + i, by omega, by omega, by rwa [getElem?_drop] at hi⟩
  · rintro ⟨i, hai, hib, hi⟩
    refine ⟨i - a, ?_⟩
    rw [getElem?_take_of_lt (by omega), getElem?_drop]
    rwa [show a + (i - a) = i by omega]

theorem mem_of_mem_extract {l : List α} (h : x ∈ l.extract a b) : x ∈ l := by
  obtain ⟨i, -, -, hi⟩ := mem_extract.mp h
  exact mem_of_getElem? hi

theorem extract_subset_extract {a' b' : ℕ} (ha : a' ≤ a) (hb : b ≤ b') : l.extract a b ⊆ l.extract a' b' := by
  intro x hx
  obtain ⟨i, hai, hib, hi⟩ := mem_extract.mp hx
  exact mem_extract.mpr ⟨i, by omega, by omega, hi⟩

theorem map_extract {β : Type*} (f : α → β) (l : List α) (a b : ℕ) : (l.extract a b).map f = (l.map f).extract a b := by
  simp only [extract_eq_take_drop, map_take, map_drop]

theorem extract_sublist (a b : ℕ) : (l.extract a b).Sublist l := by
  rw [extract_eq_take_drop]
  exact (take_sublist _ _).trans (drop_sublist _ _)

theorem extract_min_length (a b : ℕ) : l.extract a (min b l.length) = l.extract a b := by
  rw [extract_eq_take_drop, extract_eq_take_drop]
  rcases le_total b l.length with h | h
  · rw [min_eq_left h]
  · have hlen : (l.drop a).length ≤ b - a := by
      rw [length_drop]
      omega
    rw [min_eq_right h, take_of_length_le (by simp), take_of_length_le hlen]

theorem flatMap_range_extract (n k : ℕ) :
    ((range k).flatMap fun i => l.extract (i * n) ((i + 1) * n)) = l.extract 0 (k * n) := by
  induction k with
  | zero => simp
  | succ k ih =>
    rw [range_succ, flatMap_append, ih, flatMap_singleton,
      extract_append_extract l (Nat.zero_le _) (Nat.mul_le_mul_right n (Nat.le_succ k))]

/-- The signed 64-bit integer congruent to `x`. -/
def int64 (x : ℤ) : ℤ := (x + 2 ^ 63) % 2 ^ 64 - 2 ^ 63

/-- The unsigned 64-bit integer congruent to `x`. -/
def uint64 (x : ℤ) : ℕ := (x % 2 ^ 64).toNat

def maxInt64 : ℤ := 2 ^ 63 - 1

def minInt64 : ℤ := -2 ^ 63

theorem int64_of_mem {x : ℤ} (h1 : minInt64 ≤ x) (h2 : x ≤ maxInt64) : int64 x = x := by
  unfold int64 minInt64 maxInt64 at *
  omega

theorem int64_int64_add (x y : ℤ) : int64 (int64 x + y) = int64 (x + y) := by
  unfold int64
  omega

theorem int64_add_int64 (x y : ℤ) : int64 (x + int64 y) = int64 (x + y) := by
  rw [Int.add_comm, int64_int64_add, Int.add_comm]

/-! ### Pieces of equal length -/

variable {α β : Type*}

/-- Pieces of `n` elements, the last one of what is left. -/
def splitEvery (n : ℕ) : List α → List (List α)
  | [] => []
  | x :: xs => (x :: xs.take (n - 1)) :: splitEvery n (xs.drop (n - 1))
termination_by l => l.length

@[simp] theorem splitEvery_nil (n : ℕ) : splitEvery n ([] : List α) = [] := by
  rw [splitEvery]

theorem splitEvery_cons (hn : 0 < n) {l : List α} (hl : l ≠ []) :
    splitEvery n l = l.take n :: splitEvery n (l.drop n) := by
  obtain ⟨m, rfl⟩ : ∃ m, n = m + 1 := ⟨n - 1, by omega⟩
  cases l with
  | nil => exact absurd rfl hl
  | cons x xs => rw [splitEvery]; rfl

theorem splitEvery_append (hn : 0 < n) {piece : List α} (hp : piece.length = n) (l : List α) :
    splitEvery n (piece ++ l) = piece :: splitEvery n l := by
  have hne : piece ++ l ≠ [] := by
    intro h
    have := congrArg length h
    simp only [length_append, length_nil] at this
    omega
  rw [splitEvery_cons hn hne, ← hp, take_left, drop_left]

theorem splitEvery_flatten_append (hn : 0 < n) {pieces : List (List α)} (hp : ∀ p ∈ pieces, p.length = n) (l : List α) :
    splitEvery n (pieces.flatten ++ l) = pieces ++ splitEvery n l := by
  induction pieces with
  | nil => rfl
  | cons p ps ih =>
    rw [flatten_cons, append_assoc, splitEvery_append hn (hp p (by simp)),
      ih fun q hq => hp q (mem_cons_of_mem _ hq), cons_append]

theorem splitEvery_of_le {l : List α} (hne : l ≠ []) (hl : l.length ≤ n) : splitEvery n l = [l] := by
  have hn : 0 < n := lt_of_lt_of_le (length_pos_iff.mpr hne) hl
  rw [splitEvery_cons hn hne, take_of_length_le hl, drop_of_length_le hl, splitEvery_nil]

theorem splitEvery_of_length_succ (hn : 0 < n) {l : List α} (hl : l.length = n + 1) :
    ∃ a, splitEvery n l = [l.take n, [a]] := by
  obtain ⟨a, ha⟩ := length_eq_one_iff.mp (show (l.drop n).length = 1 by rw [length_drop]; omega)
  have hne : l ≠ [] := by
    rintro rfl
    simp at hl
  exact ⟨a, by rw [splitEvery_cons hn hne, ha, splitEvery_of_le (cons_ne_nil _ _) hn]⟩

@[simp] theorem flatten_splitEvery (l : List α) : (splitEvery n l).flatten = l := by
  fun_induction splitEvery n l with
  | case1 => rfl
  | case2 x xs ih => rw [flatten_cons, ih, cons_append, take_append_drop]

theorem map_splitEvery (f : α → β) (n : ℕ) (l : List α) : (splitEvery n l).map (map f) = splitEvery n (l.map f) := by
  fun_induction splitEvery n l with
  | case1 => simp
  | case2 x xs ih =>
    rw [map_cons, ih, map_cons, map_cons, splitEvery, map_take, map_drop]

end GeminiTS.Lib
