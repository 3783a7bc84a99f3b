import Mathlib

/-!
# Cover — cutting a list into longest groups

A `Grouping` says how long the group at the head of a list is. `cover` goes through the positions of a list and keeps
the group at a position only if it reaches further than all groups before it.

* `prefix_of_cover` — where the groups of a list stand, the list stands.
-/

namespace GeminiTS.Lib

open List

variable {α : Type*}

/-- How long the group at the head of a list is. What follows after `n` elements does not matter for them. -/
structure Grouping (α : Type*) where
  size : List α → ℕ
  pos : ∀ a l, 0 < size (a :: l)
  size_take : ∀ l n, size (l.take n) = min (size l) n
  le_length : ∀ l, size l ≤ l.length

variable (G : Grouping α)

/-- The group at a position. -/
def Grouping.group (l : List α) (i : ℕ) : List α := (l.drop i).take (G.size (l.drop i))

/-- Where the group at a position ends. -/
def Grouping.stop (l : List α) (i : ℕ) : ℕ := i + G.size (l.drop i)

/-- The groups that reach further than `last` and than all groups before them, with their positions from `i` on. -/
def cover : (i last : ℕ) → List α → List (ℕ × List α)
  | _, _, [] => []
  | i, last, a :: l =>
    if i + G.size (a :: l) ≤ last then cover (i + 1) last l
    else (i, (a :: l).take (G.size (a :: l))) :: cover (i + 1) (i + G.size (a :: l)) l

namespace Grouping

variable {G} {l : List α} {i j p : ℕ}

@[simp] theorem stop_zero (l : List α) : G.stop l 0 = G.size l := Nat.zero_add _

theorem group_of_stop (h : G.stop l 0 = l.length) : G.group l 0 = l := by
  rw [group, drop_zero, ← stop_zero, h, take_length]

theorem stop_cons_succ (a : α) (l : List α) (i : ℕ) : G.stop (a :: l) (i + 1) = G.stop l i + 1 := by
  rw [stop, stop, drop_succ_cons]
  omega

theorem stop_le (h : i ≤ l.length) : G.stop l i ≤ l.length := by
  have hle := G.le_length (l.drop i)
  rw [length_drop] at hle
  unfold stop
  omega

theorem lt_stop (h : i < l.length) : i < G.stop l i := by
  unfold stop
  rw [drop_eq_getElem_cons h]
  have hpos := G.pos l[i] (l.drop (i + 1))
  omega

theorem length_group (l : List α) (i : ℕ) : i + (G.group l i).length = G.stop l i := by
  rw [group, stop, length_take, min_eq_left (G.le_length _)]

end Grouping

open Grouping

variable {G} {l : List α} {i j p last : ℕ} {g : List α}

open Grouping

theorem mem_cover : (j, g) ∈ cover G i last l ↔ ∃ k < l.length, j = i + k ∧ g = G.group l k ∧
    last < i + G.stop l k ∧ ∀ k' < k, G.stop l k' < G.stop l k := by
  induction l generalizing i last with
  | nil => simp [cover]
  | cons a l ih =>
    -- position 0 is the group at the head, the others are positions of the tail
    rw [length_cons, Nat.exists_lt_succ_left, cover]
    simp only [Nat.forall_lt_succ_left, stop_cons_succ, stop_zero]
    split_ifs with h
    · rw [ih]
      constructor
      · rintro ⟨k, hk, rfl, rfl, hlast, hmax⟩
        exact .inr ⟨k, hk, by omega, rfl, by omega, by omega, fun k' hk' => Nat.succ_lt_succ (hmax k' hk')⟩
      · rintro (⟨-, -, hlast, -⟩ | ⟨k, hk, rfl, rfl, hlast, hfirst, hmax⟩)
        · omega
        · exact ⟨k, hk, by omega, rfl, by omega, fun k' hk' => Nat.lt_of_succ_lt_succ (hmax k' hk')⟩
    · rw [mem_cons, ih]
      constructor
      · rintro (heq | ⟨k, hk, rfl, rfl, hlast, hmax⟩)
        · obtain ⟨rfl, rfl⟩ := Prod.mk.inj heq
          exact .inl ⟨rfl, rfl, by omega, fun k' hk' => absurd hk' (Nat.not_lt_zero _)⟩
        · exact .inr ⟨k, hk, by omega, rfl, by omega, by omega, fun k' hk' => Nat.succ_lt_succ (hmax k' hk')⟩
      · rintro (⟨rfl, rfl, -⟩ | ⟨k, hk, rfl, rfl, hlast, hfirst, hmax⟩)
        · exact .inl rfl
        · exact .inr ⟨k, hk, by omega, rfl, by omega, fun k' hk' => Nat.lt_of_succ_lt_succ (hmax k' hk')⟩

/-- The groups of a list are those that reach further than all groups before them. -/
theorem mem_cover_zero : (j, g) ∈ cover G 0 0 l ↔
    j < l.length ∧ g = G.group l j ∧ ∀ j' < j, G.stop l j' < G.stop l j := by
  rw [mem_cover]
  constructor
  · rintro ⟨k, hk, rfl, rfl, -, hmax⟩
    rw [Nat.zero_add]
    exact ⟨hk, rfl, hmax⟩
  · rintro ⟨hj, rfl, hmax⟩
    have := lt_stop (G := G) hj
    exact ⟨j, hj, (Nat.zero_add j).symm, rfl, by omega, hmax⟩

section

variable (h : (j, g) ∈ cover G 0 0 l)

include h

theorem stop_of_mem : j + g.length = G.stop l j := by
  obtain ⟨-, rfl, -⟩ := mem_cover_zero.mp h
  exact length_group l j

theorem prefix_drop_of_mem : g <+: l.drop j := by
  obtain ⟨-, rfl, -⟩ := mem_cover_zero.mp h
  exact take_prefix _ _

theorem cover_ne_nil : g ≠ [] := by
  have hstop := stop_of_mem h
  have hlt := lt_stop (G := G) (mem_cover_zero.mp h).1
  rintro rfl
  rw [length_nil] at hstop
  omega

end

theorem exists_cover (hp : p < l.length) : ∃ i g, (i, g) ∈ cover G 0 0 l ∧ i ≤ p ∧ G.stop l p ≤ G.stop l i := by
  induction p using Nat.strong_induction_on with
  | _ p ih =>
    by_cases hmax : ∀ p' < p, G.stop l p' < G.stop l p
    · exact ⟨p, _, mem_cover_zero.mpr ⟨hp, rfl, hmax⟩, le_refl p, le_refl _⟩
    · push Not at hmax
      obtain ⟨p', hlt, hle⟩ := hmax
      obtain ⟨i, g, hmem, hi, hstop⟩ := ih p' hlt (by omega)
      exact ⟨i, g, hmem, by omega, by omega⟩

theorem pairwise_cover : (cover G i last l).Pairwise fun a b => a.1 < b.1 ∧ a.1 + a.2.length < b.1 + b.2.length := by
  induction l generalizing i last with
  | nil => exact .nil
  | cons a l ih =>
    rw [cover]
    split_ifs with h
    · exact ih
    · refine pairwise_cons.mpr ⟨?_, ih⟩
      rintro ⟨j, g⟩ hmem
      obtain ⟨k, hk, rfl, rfl, hlast, -⟩ := mem_cover.mp hmem
      have hlen := length_group (G := G) l k
      simp only [length_take]
      omega

theorem fst_of_cover_eq_cons {y : ℕ × List α} {ys : List (ℕ × List α)} (h : cover G 0 0 l = y :: ys) : y.1 = 0 := by
  cases l with
  | nil => cases h
  | cons a l =>
    have hpos := G.pos a l
    rw [cover, if_neg (by omega)] at h
    rw [← (cons.inj h).1]

theorem isChain_cover : (cover G i last l).IsChain fun a b => b.1 ≤ a.1 + a.2.length := by
  -- The next group starts not behind the end of the last one.
  have hhead : ∀ (l : List α) (i last), ∀ x ∈ (cover G i last l).head?, x.1 ≤ max i last := by
    intro l
    induction l with
    | nil => exact fun _ _ x hx => by cases hx
    | cons a l ih =>
      intro i last x hx
      have hpos := G.pos a l
      rw [cover] at hx
      split_ifs at hx with h
      · have := ih (i + 1) last x hx
        omega
      · cases hx
        exact Nat.le_max_left _ _
  induction l generalizing i last with
  | nil => exact .nil
  | cons a l ih =>
    rw [cover]
    split_ifs with h
    · exact ih
    · have hle := hhead l (i + 1) (i + G.size (a :: l))
      have hrest : (cover G (i + 1) (i + G.size (a :: l)) l).IsChain _ := ih
      have hpos := G.pos a l
      generalize cover G (i + 1) (i + G.size (a :: l)) l = c at hle hrest
      cases c with
      | nil => exact .singleton _
      | cons x c =>
        refine .cons_cons ?_ hrest
        have := hle x rfl
        rw [length_take, min_eq_left (G.le_length _)]
        omega

theorem stop_le_of_mem (h : (j, g) ∈ cover G 0 0 l) : j + g.length ≤ l.length := by
  rw [stop_of_mem h]
  exact stop_le (mem_cover_zero.mp h).1.le

/-- The first group stands at the front; with others behind it, it does not reach the end, and only the last one
does. -/
theorem cover_shape (hl : l ≠ []) : ∃ ys, cover G 0 0 l = (0, G.group l 0) :: ys ∧ (ys = [] → G.stop l 0 = l.length) ∧
    (∀ z ∈ ys, 0 < z.1 ∧ G.stop l 0 < l.length) ∧ ∀ z ∈ ys.dropLast, z.1 + z.2.length < l.length := by
  have hpos := length_pos_iff.mpr hl
  -- Some group reaches the end.
  obtain ⟨i, g, hfinal, -, hend⟩ := exists_cover (G := G) (l := l) (p := l.length - 1) (by omega)
  have hfull : i + g.length = l.length := by
    have h1 := stop_of_mem hfinal
    have h2 := lt_stop (G := G) (l := l) (i := l.length - 1) (by omega)
    have h3 := stop_le_of_mem hfinal
    omega
  have hpairs : (cover G 0 0 l).Pairwise fun a b => a.1 < b.1 ∧ a.1 + a.2.length < b.1 + b.2.length := pairwise_cover
  have hle : ∀ y ∈ cover G 0 0 l, y.1 + y.2.length ≤ l.length := fun y hy => stop_le_of_mem hy
  cases hcover : cover G 0 0 l with
  | nil =>
    rw [hcover] at hfinal
    cases hfinal
  | cons y ys =>
    have hy0 := fst_of_cover_eq_cons hcover
    have hymem : (y.1, y.2) ∈ cover G 0 0 l := hcover ▸ mem_cons_self
    have hygroup := (mem_cover_zero.mp hymem).2.1
    have hystop := stop_of_mem hymem
    rw [hcover] at hfinal hpairs hle
    rw [hy0] at hygroup hystop
    refine ⟨ys, congrArg (· :: ys) (Prod.ext hy0 hygroup), ?_, ?_, ?_⟩
    · rintro rfl
      have hy : (i, g) = y := mem_singleton.mp hfinal
      rw [← hy] at hy0 hystop
      change 0 + g.length = _ at hystop
      omega
    · intro z hz
      have h1 := (pairwise_cons.mp hpairs).1 z hz
      have h2 := hle z (mem_cons_of_mem _ hz)
      omega
    · intro z hz
      rcases eq_nil_or_concat ys with rfl | ⟨init, y', hinit⟩
      · cases hz
      · rw [concat_eq_append] at hinit
        subst hinit
        rw [dropLast_concat] at hz
        have h1 := (pairwise_append.mp hpairs.of_cons).2.2 z hz y' mem_cons_self
        have h2 := hle y' (mem_cons_of_mem _ (mem_append_right _ mem_cons_self))
        omega

theorem prefix_of_cover {q : List α} (h : ∀ j g, (j, g) ∈ cover G 0 0 q → g <+: l.drop (p + j)) : q <+: l.drop p := by
  refine prefix_iff_getElem?.mpr fun x hx => ?_
  obtain ⟨j, g, hmem, hj, hstop⟩ := exists_cover (G := G) hx
  have hin : x - j < g.length := by
    have := stop_of_mem hmem
    have := lt_stop (G := G) hx
    omega
  have hq := prefix_iff_getElem?.mp (prefix_drop_of_mem hmem) (x - j) hin
  have hl := prefix_iff_getElem?.mp (h j g hmem) (x - j) hin
  rw [getElem?_drop, Nat.add_sub_cancel' hj, getElem?_eq_getElem hx] at hq
  rw [getElem?_drop, Nat.add_assoc, Nat.add_sub_cancel' hj] at hl
  rw [getElem?_drop, hl, ← hq]

/-! ### The groups of a part of a list -/

/-- No group ends before the one at the position before. -/
def Grouping.Ascends (G : Grouping α) (l : List α) : Prop := ∀ i, i + 1 < l.length → G.stop l i ≤ G.stop l (i + 1)

theorem Grouping.Ascends.stop_mono (hG : G.Ascends l) (hij : i ≤ j) (hj : j < l.length) : G.stop l i ≤ G.stop l j := by
  induction j, hij using Nat.le_induction with
  | base => exact le_refl _
  | succ j hij ih => exact (ih (by omega)).trans (hG j hj)

section Phrase

variable {q : List α} (hq : q <+: l.drop p)

include hq

theorem drop_phrase (j : ℕ) : q.drop j = (l.drop (p + j)).take (q.length - j) := by
  conv_lhs => rw [prefix_iff_eq_take.mp hq]
  rw [drop_take, drop_drop]

theorem stop_phrase (hj : j ≤ q.length) : G.stop q j = min (G.stop l (p + j) - p) q.length := by
  unfold stop
  rw [drop_phrase hq, G.size_take]
  omega

/-- A group that ends before the part does is the group of the list. -/
theorem group_phrase (hj : j ≤ q.length) (hstop : G.stop q j < q.length) : G.group q j = G.group l (p + j) := by
  have hs := stop_phrase (G := G) hq hj
  have hsize : G.size (q.drop j) = G.size (l.drop (p + j)) := by
    unfold stop at hs hstop
    omega
  rw [group, hsize, drop_phrase hq, take_take]
  congr 1
  unfold stop at hs hstop
  omega

theorem length_phrase (hne : q ≠ []) : p + q.length ≤ l.length := by
  have hpos := length_pos_iff.mpr hne
  have := hq.length_le
  rw [length_drop] at this
  omega

theorem cover_only (hne : q ≠ []) (hstop : G.stop q 0 = q.length) :
    ∃ i g, (i, g) ∈ cover G 0 0 l ∧ i ≤ p ∧ q <+: g.drop (p - i) := by
  have hpos := length_pos_iff.mpr hne
  have hlen := length_phrase hq hne
  obtain ⟨i, g, hmem, hi, hle⟩ := exists_cover (l := l) (p := p) (by omega)
  refine ⟨i, g, hmem, hi, ?_⟩
  have hs := stop_phrase (G := G) hq (Nat.zero_le _)
  have hgroup := stop_of_mem hmem
  rw [Nat.add_zero] at hs
  obtain ⟨-, rfl, -⟩ := mem_cover_zero.mp hmem
  refine prefix_of_prefix_length_le hq ?_ ?_
  · rw [group, drop_take, drop_drop, Nat.add_sub_cancel' hi]
    exact take_prefix _ _
  · rw [length_drop]
    omega

theorem cover_first (hG : G.Ascends l) (hstop : G.stop q 0 < q.length) :
    ∃ i g, (i, g) ∈ cover G 0 0 l ∧ i ≤ p ∧ p - i < g.length ∧ g.drop (p - i) = G.group q 0 := by
  have hne : q ≠ [] := by
    rintro rfl
    exact Nat.not_lt_zero _ hstop
  have hlen := length_phrase hq hne
  obtain ⟨i, g, hmem, hi, hle⟩ := exists_cover (l := l) (p := p) (by omega)
  have hend : G.stop l i = G.stop l p := le_antisymm (hG.stop_mono hi (by omega)) hle
  have hlt := lt_stop (G := G) (l := l) (i := p) (by omega)
  have hg := stop_of_mem hmem
  refine ⟨i, g, hmem, hi, by omega, ?_⟩
  rw [group_phrase hq (Nat.zero_le _) hstop, Nat.add_zero]
  obtain ⟨-, rfl, -⟩ := mem_cover_zero.mp hmem
  rw [group, drop_take, drop_drop, Nat.add_sub_cancel' hi]
  congr 1
  unfold stop at hend
  omega

section

variable (hG : G.Ascends l) (hj : 0 < j) (hmem : (j, g) ∈ cover G 0 0 q)

include hG hj hmem

theorem stop_lt_of_mem_cover : ∀ i < p + j, G.stop l i < G.stop l (p + j) := by
  obtain ⟨hlt, -, hmax⟩ := mem_cover_zero.mp hmem
  have hlen := length_phrase hq (by rintro rfl; exact Nat.not_lt_zero _ hlt)
  intro i hi
  have hmono : G.stop l i ≤ G.stop l (p + (j - 1)) := hG.stop_mono (by omega) (by omega)
  have hprev := stop_phrase (G := G) hq (j := j - 1) (by omega)
  have hthis := stop_phrase (G := G) hq (j := j) (by omega)
  have hstep := hmax (j - 1) (by omega)
  omega

theorem cover_middle (hstop : j + g.length < q.length) : (p + j, g) ∈ cover G 0 0 l := by
  obtain ⟨hlt, rfl, -⟩ := mem_cover_zero.mp hmem
  have hlen := length_phrase hq (by rintro rfl; exact Nat.not_lt_zero _ hlt)
  rw [length_group] at hstop
  exact mem_cover_zero.mpr ⟨by omega, group_phrase hq hlt.le hstop, stop_lt_of_mem_cover hq hG hj hmem⟩

theorem cover_last : ∃ g', (p + j, g') ∈ cover G 0 0 l ∧ g <+: g' := by
  obtain ⟨hlt, rfl, -⟩ := mem_cover_zero.mp hmem
  have hlen := length_phrase hq (by rintro rfl; exact Nat.not_lt_zero _ hlt)
  refine ⟨_, mem_cover_zero.mpr ⟨by omega, rfl, stop_lt_of_mem_cover hq hG hj hmem⟩, ?_⟩
  rw [group, drop_phrase hq, G.size_take, take_take]
  exact take_prefix_take_left (by omega)

end

end Phrase

end GeminiTS.Lib
