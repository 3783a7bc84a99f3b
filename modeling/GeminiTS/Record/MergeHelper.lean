import GeminiTS.Record.Columns

/-!
# MergeHelper — merging one column of ordered and out-of-order data

`MergeHelper.Merge` (`lib/record/meger.go`) walks a column and its times next to another column and
its times and takes runs of the one that is behind; at equal times the out-of-order value replaces
the ordered one unless it is null. `MergeTimes` (`engine/immutable/merge_util.go`) does the same
with times only.
-/

namespace GeminiTS

open Lib List

variable {V : Type*}

/-- A column next to its times. -/
abbrev TimedCol (V : Type*) := List (ℤ × Option V)

/-- The union of two ascending lists of times. -/
def mergeTimes : List ℤ → List ℤ → List ℤ
  | [], b => b
  | a, [] => a
  | x :: a, y :: b =>
    if x = y then x :: mergeTimes a b
    else if x < y then x :: mergeTimes a (y :: b)
    else y :: mergeTimes (x :: a) b
termination_by a b => a.length + b.length

/-- The loop of `MergeHelper.merge` with a `ColMergePerformer`. -/
def mergeCol (order unordered : TimedCol V) : TimedCol V :=
  match order, unordered with
  | [], unordered => unordered
  | order, [] => order
  | (s, a) :: order, (t, b) :: unordered =>
    -- replace the old value with the new value at the same time
    if s = t then (if b.isSome then (t, b) else (s, a)) :: mergeCol order unordered
    else if s < t then
      (s, a) :: order.takeWhile (·.1 < t) ++ mergeCol (order.dropWhile (·.1 < t)) ((t, b) :: unordered)
    else
      (t, b) :: unordered.takeWhile (·.1 < s) ++ mergeCol ((s, a) :: order) (unordered.dropWhile (·.1 < s))
termination_by order.length + unordered.length
decreasing_by
  · simp only [length_cons]; omega
  · have := (dropWhile_sublist (fun p : ℤ × Option V => decide (p.1 < t)) (l := order)).length_le
    simp only [length_cons]; omega
  · have := (dropWhile_sublist (fun p : ℤ × Option V => decide (p.1 < s)) (l := unordered)).length_le
    simp only [length_cons]; omega

/-- `MergeHelper.Merge`: the added out-of-order columns are laid over one after another. -/
def MergeHelper.merge (unordered : List (TimedCol V)) (col : TimedCol V) : TimedCol V := unordered.foldl mergeCol col

/-! ### Times -/

variable {a : List ℤ} {s t : ℤ} {b : List ℤ}

theorem mergeTimes_eq_mergeRecordSchema (a b : List ℤ) : mergeTimes a b = Record.mergeRecordSchema a b := by
  fun_induction mergeTimes a b with
  | case1 b => rw [Record.mergeRecordSchema]
  | case2 a h => cases a <;> simp [Record.mergeRecordSchema]
  | case3 a x b ih => simp [Record.mergeRecordSchema, ih]
  | case4 x a y b _ hlt ih => simp [Record.mergeRecordSchema, hlt, ih]
  | case5 x a y b hne hlt ih =>
    simp [Record.mergeRecordSchema, hlt, lt_of_le_of_ne (not_lt.mp hlt) (Ne.symm hne), ih]

theorem mem_mergeTimes {a b : List ℤ} {t : ℤ} : t ∈ mergeTimes a b ↔ t ∈ a ∨ t ∈ b := by
  rw [mergeTimes_eq_mergeRecordSchema, Record.mem_mergeRecordSchema]

theorem pairwise_mergeTimes {a b : List ℤ} (ha : a.Pairwise (· < ·)) (hb : b.Pairwise (· < ·)) :
    (mergeTimes a b).Pairwise (· < ·) := by
  rw [mergeTimes_eq_mergeRecordSchema]
  exact Record.mergeRecordSchema_ordered ha hb

theorem mergeTimes_eq {l : List ℤ} (ha : a.Pairwise (· < ·)) (hb : b.Pairwise (· < ·)) (hl : l.Pairwise (· < ·))
    (h : ∀ t, t ∈ l ↔ t ∈ a ∨ t ∈ b) : mergeTimes a b = l :=
  (pairwise_mergeTimes ha hb).eq_of_mem_iff hl fun t => by rw [mem_mergeTimes, h]

/-! ### Columns -/

theorem mergeCol_nil_right (order : TimedCol V) : mergeCol order [] = order := by
  cases order <;> simp [mergeCol]

theorem mergeCol_cons_of_lt (h : s < t) (a b : Option V) (order unordered : TimedCol V) :
    mergeCol ((s, a) :: order) ((t, b) :: unordered) = (s, a) :: mergeCol order ((t, b) :: unordered) := by
  rw [mergeCol, if_neg h.ne, if_pos h, cons_append]
  congr 1
  cases order with
  | nil => simp
  | cons p order =>
    obtain ⟨s', a'⟩ := p
    by_cases hs : s' < t
    · rw [takeWhile_cons_of_pos (by simpa using hs),
        dropWhile_cons_of_pos (by simpa using hs), mergeCol.eq_def ((s', a') :: order)]
      simp [hs, hs.ne]
    · rw [takeWhile_cons_of_neg (by simpa using hs), dropWhile_cons_of_neg (by simpa using hs), nil_append]

theorem mergeCol_cons_of_gt (h : t < s) (a b : Option V) (order unordered : TimedCol V) :
    mergeCol ((s, a) :: order) ((t, b) :: unordered) = (t, b) :: mergeCol ((s, a) :: order) unordered := by
  rw [mergeCol, if_neg h.ne', if_neg h.not_gt, cons_append]
  congr 1
  cases unordered with
  | nil => simp
  | cons p unordered =>
    obtain ⟨t', b'⟩ := p
    by_cases ht : t' < s
    · rw [takeWhile_cons_of_pos (by simpa using ht), dropWhile_cons_of_pos (by simpa using ht),
        mergeCol.eq_def ((s, a) :: order) ((t', b') :: unordered)]
      simp [ht.ne', ht.not_gt]
    · rw [takeWhile_cons_of_neg (by simpa using ht), dropWhile_cons_of_neg (by simpa using ht), nil_append]

/-- **Merging two columns lays one function over the other** on the union of their times, when each
is null at the times only the other has. -/
theorem mergeCol_graph {g h : ℤ → Option V} (ha : a.Pairwise (· < ·)) (hb : b.Pairwise (· < ·))
    (hg : ∀ t ∈ b, t ∉ a → g t = none) (hh : ∀ t ∈ a, t ∉ b → h t = none) :
    mergeCol (graph a g) (graph b h) = graph (mergeTimes a b) fun t => (h t).or (g t) := by
  fun_induction mergeTimes a b with
  | case1 b =>
    rw [graph_nil, mergeCol]
    exact graph_congr fun t ht => by rw [hg t ht (by simp), Option.or_none]
  | case2 a =>
    rw [graph_nil, mergeCol_nil_right]
    exact graph_congr fun t ht => by rw [hh t ht (by simp), Option.none_or]
  | case3 a x b ih =>
    rw [pairwise_cons] at ha hb
    rw [graph_cons, graph_cons, graph_cons, mergeCol, if_pos rfl, ih ha.2 hb.2]
    · cases hx : h x <;> simp
    · intro t ht hta
      exact hg t (mem_cons_of_mem _ ht) (not_mem_cons_of_ne_of_not_mem (hb.1 t ht).ne' hta)
    · intro t ht htb
      exact hh t (mem_cons_of_mem _ ht) (not_mem_cons_of_ne_of_not_mem (ha.1 t ht).ne' htb)
  | case4 x a y b hne hlt ih =>
    have hxb : x ∉ y :: b := not_mem_cons_of_ne_of_not_mem hne fun hmem => ((pairwise_cons.mp hb).1 x hmem).not_gt hlt
    have ih' := ih ha.of_cons hb
      (fun t ht hta => hg t ht (not_mem_cons_of_ne_of_not_mem (ne_of_mem_of_not_mem ht hxb) hta))
      (fun t ht htb => hh t (mem_cons_of_mem _ ht) htb)
    simp only [graph_cons] at ih' ⊢
    rw [mergeCol_cons_of_lt hlt, ih', hh x (by simp) hxb, Option.none_or]
  | case5 x a y b hne hlt ih =>
    have hyx : y < x := lt_of_le_of_ne (not_lt.mp hlt) (Ne.symm hne)
    have hya : y ∉ x :: a :=
      not_mem_cons_of_ne_of_not_mem (Ne.symm hne) fun hmem => ((pairwise_cons.mp ha).1 y hmem).not_gt hyx
    have ih' := ih ha hb.of_cons (fun t ht hta => hg t (mem_cons_of_mem _ ht) hta)
      (fun t ht htb => hh t ht (not_mem_cons_of_ne_of_not_mem (ne_of_mem_of_not_mem ht hya) htb))
    simp only [graph_cons] at ih' ⊢
    rw [mergeCol_cons_of_gt hyx, ih', hg y (by simp) hya, Option.or_none]

end GeminiTS
