import Mathlib

/-!
# StableSort — sorting by a key without moving equal keys past each other

* `stableSort key l` — `l` in ascending order of `key`; Go's `sort.Stable`, and `sort.Sort` where
  the keys are distinct.
* `insertAfter` — one more element for a sorted list, behind those of its key; `stableSort_concat`.
* `take_stableSort_append` — when more elements leave the first ones as they are.
-/

namespace GeminiTS.Lib

open List

variable {α κ : Type*} [LinearOrder κ]

/-- `l` in ascending order of `key`, elements of equal key in the order of `l`. -/
def stableSort (key : α → κ) (l : List α) : List α := l.insertionSort fun a b => key a ≤ key b

variable (key : α → κ) (l : List α)

theorem stableSort_perm : (stableSort key l).Perm l := perm_insertionSort _ _

theorem pairwise_stableSort : (stableSort key l).Pairwise fun a b => key a ≤ key b := by
  exact pairwise_insertionSort _ _

variable {l}

theorem filter_cons_of_lt {b : α} (hl : (b :: l).Pairwise fun a b => key a ≤ key b) {k : κ} (hb : k < key b) :
    (b :: l).filter (fun c => key c ≤ k) = [] ∧ (b :: l).filter (fun c => k < key c) = b :: l := by
  have hbehind : ∀ c ∈ b :: l, k < key c := by
    intro c hc
    rcases mem_cons.mp hc with rfl | hc
    · exact hb
    · exact hb.trans_le (rel_of_pairwise_cons hl hc)
  exact ⟨filter_eq_nil_iff.mpr fun c hc => by simpa using hbehind c hc,
    filter_eq_self.mpr fun c hc => by simpa using hbehind c hc⟩

theorem filter_append_filter (hl : l.Pairwise fun a b => key a ≤ key b) (k : κ) :
    l.filter (fun b => key b ≤ k) ++ l.filter (fun b => k < key b) = l := by
  induction l with
  | nil => rfl
  | cons b l ih =>
    by_cases hb : key b ≤ k
    · rw [filter_cons_of_pos (by simpa using hb), filter_cons_of_neg (by simpa using hb), cons_append, ih hl.tail]
    · obtain ⟨hnone, hall⟩ := filter_cons_of_lt key hl (not_le.mp hb)
      rw [hnone, hall, nil_append]

variable (l)

theorem filter_stableSort (k : κ) : (stableSort key l).filter (fun a => key a = k) = l.filter fun a => key a = k := by
  have hsub : (l.filter fun a => key a = k).Sublist (stableSort key l) := by
    refine sublist_insertionSort ?_ filter_sublist
    refine pairwise_of_forall_mem_list fun a ha b hb => ?_
    rw [mem_filter, decide_eq_true_eq] at ha hb
    exact (ha.2.trans hb.2.symm).le
  have hsub' := hsub.filter fun a => decide (key a = k)
  simp only [filter_filter, Bool.and_self] at hsub'
  exact (hsub'.eq_of_length ((stableSort_perm key l).filter _).length_eq.symm).symm

variable {key l}

variable (key) in
/-- One more element, behind those of its key. -/
def insertAfter (a : α) : List α → List α
  | [] => [a]
  | b :: l => if key b ≤ key a then b :: insertAfter a l else a :: b :: l

theorem insertAfter_eq (hl : l.Pairwise fun a b => key a ≤ key b) (a : α) :
    insertAfter key a l = l.filter (fun b => key b ≤ key a) ++ a :: l.filter fun b => key a < key b := by
  induction l with
  | nil => rfl
  | cons b l ih =>
    rw [insertAfter]
    split_ifs with hb
    · rw [filter_cons_of_pos (by simpa using hb), filter_cons_of_neg (by simpa using hb), ih hl.tail]
      rfl
    · obtain ⟨hnone, hall⟩ := filter_cons_of_lt key hl (not_le.mp hb)
      rw [hnone, hall]
      rfl

theorem orderedInsert_insertAfter (a b : α) (l : List α) :
    (insertAfter key a l).orderedInsert (fun a b => key a ≤ key b) b =
      insertAfter key a (l.orderedInsert (fun a b => key a ≤ key b) b) := by
  induction l with
  | nil => rfl
  | cons c l ih =>
    rw [insertAfter, orderedInsert]
    split_ifs with hca hbc hbc
    · rw [orderedInsert, if_pos hbc, insertAfter, if_pos (hbc.trans hca), insertAfter, if_pos hca]
    · rw [orderedInsert, if_neg hbc, insertAfter, if_pos hca, ih]
    · rw [orderedInsert, orderedInsert, if_pos hbc, insertAfter, insertAfter, if_neg hca]
    · rw [orderedInsert, orderedInsert, if_neg hbc, insertAfter, if_neg hca,
        if_neg fun hba => hbc (hba.trans (le_of_not_ge hca))]

variable (key l) in
/-- The last element of a list is sorted in behind those of its key. -/
theorem stableSort_concat (a : α) : stableSort key (l ++ [a]) = insertAfter key a (stableSort key l) := by
  induction l with
  | nil => rfl
  | cons b l ih => exact (congrArg _ ih).trans (orderedInsert_insertAfter a b _)

/-- An element that is added to a list in order comes behind the elements that are not behind it. -/
theorem exists_split_stableSort (h : l.Pairwise fun a b => key a ≤ key b) (x : α) :
    ∃ a b, l = a ++ b ∧ stableSort key (l ++ [x]) = a ++ x :: b ∧
      (∀ y ∈ a, key y ≤ key x) ∧ ∀ y ∈ b, key x < key y := by
  refine ⟨_, _, (filter_append_filter key h (key x)).symm, ?_, fun y hy => ?_, fun y hy => ?_⟩
  · rw [stableSort_concat, stableSort, h.insertionSort_eq, insertAfter_eq h]
  · exact of_decide_eq_true (mem_filter.mp hy).2
  · exact of_decide_eq_true (mem_filter.mp hy).2

/-- A list in strictly ascending order is what any of its permutations is sorted to. -/
theorem stableSort_eq {l' : List α} (hp : l.Perm l') (h : l'.Pairwise fun a b => key a < key b) :
    stableSort key l = l' := by
  have hle : l'.Pairwise fun a b => key a ≤ key b := h.imp le_of_lt
  refine List.Perm.eq_of_pairwise ?_ (pairwise_stableSort key l) hle ((stableSort_perm key l).trans hp)
  intro a b ha hb hab hba
  have ha' := hp.mem_iff.mp ((stableSort_perm key l).mem_iff.mp ha)
  by_contra hne
  have hkey : (l'.map key).Nodup := (pairwise_map.mpr h).imp ne_of_lt
  exact hne (inj_on_of_nodup_map hkey ha' hb (le_antisymm hab hba))

/-! ### The first elements -/

section First

variable (key)

theorem length_insertAfter (a : α) (l : List α) : (insertAfter key a l).length = l.length + 1 := by
  induction l with
  | nil => rfl
  | cons b l ih =>
    rw [insertAfter]
    split_ifs
    · rw [length_cons, ih, length_cons]
    · rfl

theorem take_insertAfter (a : α) (n : ℕ) (l : List α) :
    (insertAfter key a l).take n = (insertAfter key a (l.take n)).take n := by
  induction l generalizing n with
  | nil => simp
  | cons b l ih =>
    cases n with
    | zero => rfl
    | succ n =>
      rw [take_succ_cons, insertAfter, insertAfter]
      split_ifs
      · rw [take_succ_cons, take_succ_cons, ih]
      · rw [take_succ_cons]
        cases n with
        | zero => rfl
        | succ n => simp [take_take]

theorem stableSort_map {β : Type*} (f : β → α) (l : List β) :
    stableSort key (l.map f) = (stableSort (fun b => key (f b)) l).map f :=
  (map_insertionSort (fun a b => key (f a) ≤ key (f b)) (fun a b => key a ≤ key b) f l fun _ _ _ _ => Iff.rfl).symm

/-! ### The first elements -/

theorem length_filter_take {l : List α} (hl : l.Pairwise fun a b => key a ≤ key b) (n : ℕ) (k : κ) :
    ((l.take n).filter fun b => key b ≤ k).length = min n (l.filter fun b => key b ≤ k).length := by
  have hsplit := filter_append_filter key hl k
  have hfront : ∀ b ∈ (l.filter fun b => key b ≤ k).take n, decide (key b ≤ k) = true := fun b hb =>
    (mem_filter.mp (mem_of_mem_take hb)).2
  have hback : ∀ b ∈ (l.filter fun b => k < key b).take (n - (l.filter fun b => key b ≤ k).length),
      ¬ decide (key b ≤ k) = true := fun b hb => by
    have := (mem_filter.mp (mem_of_mem_take hb)).2
    simpa using this
  conv_lhs => rw [← hsplit]
  rw [take_append, filter_append, filter_eq_self.mpr hfront, filter_eq_nil_iff.mpr hback, append_nil, length_take]

variable {key}

theorem stableSort_congr (hkey : Function.Injective key) {l l' : List α} (h : l.Perm l') :
    stableSort key l = stableSort key l' := by
  refine List.Perm.eq_of_pairwise ?_ (pairwise_stableSort key l) (pairwise_stableSort key l')
    ((stableSort_perm key l).trans (h.trans (stableSort_perm key l').symm))
  exact fun a b _ _ hab hba => hkey (le_antisymm hab hba)

/-- An element with enough others that are not behind it does not count. -/
theorem take_stableSort_concat {l : List α} {a : α} {n : ℕ} (h : n ≤ (l.filter fun b => key b ≤ key a).length) :
    (stableSort key (l ++ [a])).take n = (stableSort key l).take n := by
  have hsorted := pairwise_stableSort key l
  have hlen : n ≤ ((stableSort key l).filter fun b => key b ≤ key a).length := by
    rwa [((stableSort_perm key l).filter _).length_eq]
  rw [stableSort_concat, insertAfter_eq hsorted, take_append_of_le_length hlen]
  conv_rhs => rw [← filter_append_filter key hsorted (key a), take_append_of_le_length hlen]

/-- **When more elements do not change the first ones.** -/
theorem take_stableSort_append {l more : List α} {n : ℕ} :
    (stableSort key (l ++ more)).take n = (stableSort key l).take n ↔
      ∀ a ∈ more, n ≤ (l.filter fun b => key b ≤ key a).length := by
  constructor
  · intro h a ha
    have hcount := congrArg (fun l => (l.filter fun b => key b ≤ key a).length) h
    rw [length_filter_take key (pairwise_stableSort key _), length_filter_take key (pairwise_stableSort key _),
      ((stableSort_perm key _).filter _).length_eq, ((stableSort_perm key _).filter _).length_eq, filter_append,
      length_append] at hcount
    have hpos : 0 < (more.filter fun b => key b ≤ key a).length := length_pos_of_mem (mem_filter.mpr ⟨ha, by simp⟩)
    omega
  · intro h
    induction more using reverseRecOn with
    | nil => rw [append_nil]
    | append_singleton more a ih =>
      rw [← append_assoc, take_stableSort_concat, ih fun b hb => h b (mem_append_left _ hb)]
      have ha := h a (by simp)
      rw [filter_append, length_append]
      omega

end First

end GeminiTS.Lib
