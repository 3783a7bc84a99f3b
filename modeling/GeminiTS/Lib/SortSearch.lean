import GeminiTS.Lib.Extract
import GeminiTS.Lib.StableSort

/-!
# SortSearch — the first index at which a predicate holds

The binary search of Go's `sort.Search`, and its use on an ascending list: `countLe l m` is the
number of elements up to `m`, and cutting the list at such numbers is filtering it by bounds.

* `sortSearch_spec`, `sortSearch_eq` — on a monotone predicate the search ends at the boundary.
-/

namespace GeminiTS.Lib

open List

/-- The loop of `sort.Search` on the index range `[i, j)`. -/
def sortSearch (f : ℕ → Bool) (i j : ℕ) : ℕ :=
  if i < j then
    let h := (i + j) / 2
    if f h then sortSearch f i h else sortSearch f (h + 1) j
  else i
termination_by j - i
decreasing_by all_goals omega

variable {f : ℕ → Bool} {n : ℕ}

theorem sortSearch_spec (mono : ∀ a b, a ≤ b → b < n → f a = true → f b = true) (i j : ℕ) (hij : i ≤ j) (hj : j ≤ n)
    (hlow : ∀ k < i, f k = false) (hhigh : ∀ k, j ≤ k → k < n → f k = true) :
    sortSearch f i j ≤ n ∧ (∀ k < sortSearch f i j, f k = false) ∧ ∀ k, sortSearch f i j ≤ k → k < n → f k = true := by
  fun_induction sortSearch f i j with
  | case1 i j hlt h hf ih =>
    exact ih (by omega) (by omega) hlow fun k hk hkn => mono h k hk hkn hf
  | case2 i j hlt h hf ih =>
    refine ih (by omega) hj (fun k hk => ?_) hhigh
    cases hk' : f k with
    | false => rfl
    | true => exact absurd (mono k h (by omega) (by omega) hk') hf
  | case3 i j hlt => exact ⟨by omega, hlow, fun k hk => hhigh k (by omega)⟩

theorem sortSearch_eq {b : ℕ} (hb : b ≤ n) (hlow : ∀ k < b, f k = false) (hhigh : ∀ k, b ≤ k → k < n → f k = true) :
    sortSearch f 0 n = b := by
  suffices h : ∀ i j, i ≤ b → b ≤ j → j ≤ n → sortSearch f i j = b from h 0 n (Nat.zero_le b) hb le_rfl
  intro i j hi hj hn
  fun_induction sortSearch f i j with
  | case1 i j hlt h hf ih =>
    have hbh : ¬ h < b := fun hhb => Bool.false_ne_true ((hlow h hhb).symm.trans hf)
    exact ih hi (not_lt.mp hbh) (by omega)
  | case2 i j hlt h hf ih =>
    have hhb : ¬ b ≤ h := fun hbh => hf (hhigh h hbh (by omega))
    exact ih (by omega) hj hn
  | case3 i j hlt => omega

variable {K : Type*} [LinearOrder K]

/-- The number of elements of an ascending list up to `m`. -/
def countLe (l : List K) (m : K) : ℕ := sortSearch (fun i => l[i]?.any (m < ·)) 0 l.length

section CountLe

section Keyed

variable {α : Type*} {key : α → K} {l : List α} (hl : (l.map key).Pairwise (· < ·))

include hl

theorem countLe_map (m : K) : countLe (l.map key) m = (l.filter fun x => key x ≤ m).length := by
  have hsplit := filter_append_filter key ((pairwise_map.mp hl).imp le_of_lt) m
  refine sortSearch_eq (by simpa using length_filter_le _ l) (fun k hk => ?_) fun k hk hk' => ?_
  · rw [getElem?_map, ← hsplit, getElem?_append_left hk, getElem?_eq_getElem hk]
    simpa using (mem_filter.mp (getElem_mem hk)).2
  · rw [length_map, ← hsplit, length_append] at hk'
    have hin : k - (l.filter fun x => key x ≤ m).length < (l.filter fun x => m < key x).length := by omega
    rw [getElem?_map, ← hsplit, getElem?_append_right hk, getElem?_eq_getElem hin]
    simpa using (mem_filter.mp (getElem_mem hin)).2

theorem take_countLe_map (m : K) : l.take (countLe (l.map key) m) = l.filter fun x => key x ≤ m := by
  have hsplit := filter_append_filter key ((pairwise_map.mp hl).imp le_of_lt) m
  rw [countLe_map hl]
  exact (congrArg _ hsplit.symm).trans (take_left' rfl)

theorem drop_countLe_map (m : K) : l.drop (countLe (l.map key) m) = l.filter fun x => m < key x := by
  have hsplit := filter_append_filter key ((pairwise_map.mp hl).imp le_of_lt) m
  rw [countLe_map hl]
  exact (congrArg _ hsplit.symm).trans (drop_left' rfl)

theorem extract_countLe_map {a b : K} (hab : a ≤ b) :
    l.extract (countLe (l.map key) a) (countLe (l.map key) b) = l.filter fun x => a < key x ∧ key x ≤ b := by
  have hfilter : ((l.filter fun x => key x ≤ b).map key).Pairwise (· < ·) := hl.sublist (filter_sublist.map key)
  have hcount : countLe ((l.filter fun x => key x ≤ b).map key) a = countLe (l.map key) a := by
    rw [countLe_map hfilter, countLe_map hl, filter_filter]
    congr 1
    refine filter_congr fun x _ => ?_
    simp only [Bool.and_eq_decide, decide_eq_true_eq, decide_eq_decide, and_iff_left_iff_imp]
    exact fun h => h.trans hab
  rw [extract_eq_take_drop, ← drop_take, take_countLe_map hl, ← hcount, drop_countLe_map hfilter, filter_filter]
  refine filter_congr fun x _ => ?_
  simp

end Keyed

variable {l : List K} (hl : l.Pairwise (· < ·))

include hl

variable {a b : K} (m : K)

theorem take_countLe : l.take (countLe l m) = l.filter (· ≤ m) := by
  have h := take_countLe_map (l.map_id.symm ▸ hl) m
  rwa [map_id] at h

theorem drop_countLe : l.drop (countLe l m) = l.filter (m < ·) := by
  have h := drop_countLe_map (l.map_id.symm ▸ hl) m
  rwa [map_id] at h

theorem countLe_eq : countLe l m = (l.filter (· ≤ m)).length := by
  have h := countLe_map (l.map_id.symm ▸ hl) m
  rwa [map_id] at h

theorem countLe_le : countLe l m ≤ l.length := by
  rw [countLe_eq hl]
  exact length_filter_le _ l

theorem countLe_mono (hab : a ≤ b) : countLe l a ≤ countLe l b := by
  rw [countLe_eq hl, countLe_eq hl]
  refine List.Sublist.length_le (monotone_filter_right l fun x hx => ?_)
  simp only [decide_eq_true_eq] at hx ⊢
  exact hx.trans hab

theorem extract_countLe (hab : a ≤ b) : l.extract (countLe l a) (countLe l b) = l.filter fun x => a < x ∧ x ≤ b := by
  have h := extract_countLe_map (l.map_id.symm ▸ hl) hab
  rwa [map_id] at h

theorem countLe_congr (hab : a ≤ b) (h : ∀ x ∈ l, ¬ (a < x ∧ x ≤ b)) : countLe l a = countLe l b := by
  rw [countLe_eq hl, countLe_eq hl]
  congr 1
  refine filter_congr fun x hx => ?_
  simp only [decide_eq_decide]
  constructor
  · exact fun h' => h'.trans hab
  · intro h'
    by_contra hlt
    exact h x hx ⟨not_le.mp hlt, h'⟩

end CountLe

/-! ### The ends of an ascending list -/

variable {l : List K} {x : K}

theorem head?_le (hl : l.Pairwise (· < ·)) {a : K} (ha : l.head? = some a) (hx : x ∈ l) : a ≤ x := by
  rw [head?_eq_some_head (ne_nil_of_mem hx)] at ha
  exact Option.some.inj ha ▸ (hl.imp le_of_lt).rel_head hx

theorem le_getLast? (hl : l.Pairwise (· < ·)) {b : K} (hb : l.getLast? = some b) (hx : x ∈ l) : x ≤ b := by
  rw [getLast?_eq_some_getLast (ne_nil_of_mem hx)] at hb
  exact Option.some.inj hb ▸ (hl.imp le_of_lt).rel_getLast hx

end GeminiTS.Lib
