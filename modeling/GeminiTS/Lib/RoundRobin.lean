import Mathlib

/-!
# RoundRobin — dealing a list to queues and gathering it again

* `dealt n start p l` — what queue `p` of `n` is given if the elements of `l` are numbered from `start`
  and each goes to the queue its number leaves when divided by `n`.
-/

namespace GeminiTS.Lib

open List

variable {α β : Type*}

/-- What queue `p` is given. -/
def dealt (n start p : ℕ) (l : List α) : List α := ((l.zipIdx start).filter fun x => x.2 % n = p).map Prod.fst

/-- All queues. -/
def deal (n start : ℕ) (l : List α) : List (List α) := (List.range n).map fun p => dealt n start p l

/-- The queues after one element of each has been taken. -/
def tails (qs : List (List α)) : List (List α) := qs.map List.tail

theorem sum_length_tails_le (qs : List (List α)) : ((tails qs).map length).sum ≤ (qs.map length).sum := by
  induction qs with
  | nil => exact le_rfl
  | cons q qs ih =>
    simp only [tails, map_cons, sum_cons, length_tail] at ih ⊢
    omega

variable {qs : List (List α)} {start n p s m : ℕ} {c : List α}

theorem sum_length_tails_lt (h : ¬ ∀ q ∈ qs, q = []) : ((tails qs).map length).sum < (qs.map length).sum := by
  induction qs with
  | nil => exact absurd (by simp) h
  | cons q qs ih =>
    have hle := sum_length_tails_le qs
    simp only [tails, map_cons, sum_cons, length_tail] at ih hle ⊢
    by_cases hq : q = []
    · have := ih fun hqs => h (forall_mem_cons.mpr ⟨hq, hqs⟩)
      omega
    · have hpos := length_pos_iff.mpr hq
      omega

/-- One element of each queue in turn, until all are empty. -/
def gather (qs : List (List α)) : List α :=
  if _h : ∀ q ∈ qs, q = [] then [] else qs.filterMap head? ++ gather (tails qs)
termination_by (qs.map List.length).sum
decreasing_by exact sum_length_tails_lt _h

theorem gather_of_nil (h : ∀ q ∈ qs, q = []) : gather qs = [] := by
  rw [gather, dif_pos h]

theorem gather_eq (qs : List (List α)) : gather qs = qs.filterMap head? ++ gather (tails qs) := by
  by_cases h : ∀ q ∈ qs, q = []
  · have htails : ∀ q ∈ tails qs, q = [] := by
      intro q hq
      obtain ⟨q', hq', rfl⟩ := mem_map.mp hq
      rw [h q' hq', tail_nil]
    have hheads : qs.filterMap head? = [] := filterMap_eq_nil_iff.mpr fun q hq => by rw [h q hq, head?_nil]
    rw [gather_of_nil h, gather_of_nil htails, hheads, append_nil]
  · rw [gather, dif_neg h]

theorem mem_gather {x : α} (h : x ∈ gather qs) : ∃ q ∈ qs, x ∈ q := by
  fun_induction gather qs with
  | case1 qs hqs => exact absurd h not_mem_nil
  | case2 qs hqs ih =>
    rcases mem_append.mp h with hhead | htail
    · obtain ⟨q, hq, hx⟩ := mem_filterMap.mp hhead
      exact ⟨q, hq, mem_of_mem_head? hx⟩
    · obtain ⟨q, hq, hx⟩ := ih htail
      obtain ⟨q', hq', rfl⟩ := mem_map.mp hq
      exact ⟨q', hq', mem_of_mem_tail hx⟩

/-! ### Dealing -/

theorem dealt_nil (n start p : ℕ) : dealt n start p ([] : List α) = [] := rfl

theorem dealt_cons (n start p : ℕ) (x : α) (l : List α) :
    dealt n start p (x :: l) = if start % n = p then x :: dealt n (start + 1) p l
      else dealt n (start + 1) p l := by
  rw [dealt, zipIdx_cons, filter_cons]
  split_ifs with h h' <;> simp_all [dealt]

theorem dealt_append (n start p : ℕ) (l1 l2 : List α) :
    dealt n start p (l1 ++ l2) = dealt n start p l1 ++ dealt n (start + l1.length) p l2 := by
  rw [dealt, zipIdx_append, filter_append, map_append]
  rfl

theorem dealt_map (f : α → β) (n start p : ℕ) (l : List α) : dealt n start p (l.map f) = (dealt n start p l).map f := by
  induction l generalizing start with
  | nil => rfl
  | cons x l ih =>
    rw [map_cons, dealt_cons, dealt_cons, ih]
    split_ifs <;> rfl

theorem mem_of_mem_dealt {l : List α} {x : α} (h : x ∈ dealt n start p l) : x ∈ l := by
  obtain ⟨y, hy, rfl⟩ := mem_map.mp h
  exact fst_mem_of_mem_zipIdx (mem_of_mem_filter hy)

/-- What queue `p` is given out of each of several lists. -/
def dealtEach (n p : ℕ) : ℕ → List (List α) → List (List α)
  | _, [] => []
  | start, l :: ls => dealt n start p l :: dealtEach n p (start + l.length) ls

theorem flatten_dealtEach (n p start : ℕ) (ls : List (List α)) :
    (dealtEach n p start ls).flatten = dealt n start p ls.flatten := by
  induction ls generalizing start with
  | nil => rfl
  | cons l ls ih => rw [dealtEach, flatten_cons, ih, flatten_cons, dealt_append]

theorem dealtEach_concat (n p start : ℕ) (ls : List (List α)) (l : List α) : dealtEach n p start (ls ++ [l]) =
      dealtEach n p start ls ++ [dealt n (start + ls.flatten.length) p l] := by
  induction ls generalizing start with
  | nil => rfl
  | cons l' ls ih =>
    rw [cons_append, dealtEach, ih, flatten_cons, length_append, Nat.add_assoc]
    rfl

theorem dealt_congr {start' : ℕ} (h : start % n = start' % n) (p : ℕ) (l : List α) :
    dealt n start p l = dealt n start' p l := by
  induction l generalizing start start' with
  | nil => rfl
  | cons x l ih =>
    have hsucc : (start + 1) % n = (start' + 1) % n := by rw [Nat.add_mod, h, ← Nat.add_mod]
    rw [dealt_cons, dealt_cons, h, ih hsucc]

/-- A list that does not pass the last queue: each queue from `start` on is given one element. -/
theorem dealt_of_le {l : List α} (h : start + l.length ≤ n) :
    dealt n start p l = if start ≤ p then l[p - start]?.toList else [] := by
  induction l generalizing start with
  | nil => split_ifs <;> simp [dealt]
  | cons x l ih =>
    rw [length_cons] at h
    rw [dealt_cons, Nat.mod_eq_of_lt (by omega), ih (by omega)]
    rcases lt_trichotomy start p with hlt | rfl | hgt
    · obtain ⟨d, rfl⟩ : ∃ d, p = start + 1 + d := ⟨p - start - 1, by omega⟩
      rw [if_neg (by omega), if_pos (by omega), if_pos (by omega), Nat.add_sub_cancel_left,
        show start + 1 + d - start = d + 1 by omega, getElem?_cons_succ]
    · rw [if_pos rfl, if_neg (by omega), if_pos le_rfl, Nat.sub_self]
      rfl
    · rw [if_neg (by omega), if_neg (by omega), if_neg (by omega)]

/-- A list of at most one element for each queue, split where the dealing passes the last queue. -/
theorem dealt_turn (hc : c.length ≤ s + m) :
    dealt (s + m) s p c = if s ≤ p then (c.take m)[p - s]?.toList else (c.drop m)[p]?.toList := by
  have hafter : dealt (s + m) (s + (c.take m).length) p (c.drop m) = (c.drop m)[p]?.toList := by
    rcases lt_or_ge m c.length with hlt | hge
    · have hstart : (s + (c.take m).length) % (s + m) = 0 % (s + m) := by
        rw [length_take_of_le hlt.le, Nat.mod_self, Nat.zero_mod]
      rw [dealt_congr hstart, dealt_of_le (by rw [length_drop]; omega), if_pos (Nat.zero_le p), Nat.sub_zero]
    · rw [drop_eq_nil_of_le hge]
      rfl
  have hbefore : dealt (s + m) s p (c.take m) = if s ≤ p then (c.take m)[p - s]?.toList else [] :=
    dealt_of_le (by rw [length_take]; omega)
  conv_lhs => rw [← take_append_drop m c, dealt_append, hafter, hbefore]
  split_ifs with hsp
  · rw [getElem?_eq_none (l := c.drop m) (by rw [length_drop]; omega)]
    exact append_nil _
  · exact nil_append _

/-! ### Gathering what was dealt -/

theorem filterMap_range_getElem? (l : List α) (n : ℕ) : (range n).filterMap (l[·]?) = l.take n := by
  induction n with
  | zero => simp
  | succ n ih =>
    rw [range_succ, filterMap_append, ih, take_add_one]
    cases h : l[n]? <;> simp [h]

/-- In each run of `n` elements the first `m` come after the others. -/
def turned (n m : ℕ) (l : List α) : List α :=
  if _h : n = 0 ∨ l = [] then l
  else (l.take n).drop m ++ (l.take n).take m ++ turned n m (l.drop n)
termination_by l.length
decreasing_by
  have := length_pos_iff.mpr (not_or.mp _h).2
  rw [length_drop]
  omega

theorem turned_perm (n m : ℕ) (l : List α) : (turned n m l).Perm l := by
  fun_induction turned n m l with
  | case1 l => rfl
  | case2 l _ ih =>
    refine (perm_append_comm.append ih).trans ?_
    rw [take_append_drop, take_append_drop]

/-- What queue `p` is given first, out of a list of at most one element for each queue. -/
def firstDealt (s m p : ℕ) (c : List α) : Option α :=
  if s ≤ p then (c.take m)[p - s]? else (c.drop m)[p]?

theorem filterMap_firstDealt (hc : c.length ≤ s + m) :
    ((range (s + m)).filterMap fun p => firstDealt s m p c) = c.drop m ++ c.take m := by
  have hbefore : ((range s).filterMap fun p => firstDealt s m p c) = c.drop m := by
    have htake : (c.drop m).take s = c.drop m := take_of_length_le (by rw [length_drop]; omega)
    refine Eq.trans (filterMap_congr fun p hp => ?_) ((filterMap_range_getElem? _ s).trans htake)
    rw [mem_range] at hp
    exact if_neg (by omega)
  have hfrom : ((range m).filterMap ((fun p => firstDealt s m p c) ∘ (s + ·))) = c.take m := by
    have htake : (c.take m).take m = c.take m := by rw [take_take, Nat.min_self]
    refine Eq.trans (filterMap_congr fun p _ => ?_) ((filterMap_range_getElem? _ m).trans htake)
    rw [Function.comp_apply, firstDealt, if_pos (by omega), Nat.add_sub_cancel_left]
  rw [range_add, filterMap_append, filterMap_map, hbefore, hfrom]

theorem dealt_firstDealt {rest : List α} (hc : c.length ≤ s + m)
    (hs : start % (s + m) = s % (s + m)) (hrest : c.length < s + m → rest = []) :
    dealt (s + m) start p (c ++ rest) = (firstDealt s m p c).toList ++ dealt (s + m) start p rest := by
  have hfirst : dealt (s + m) start p c = (firstDealt s m p c).toList := by
    rw [dealt_congr hs, dealt_turn hc, firstDealt]
    split_ifs <;> rfl
  have hthen : dealt (s + m) (start + c.length) p rest = dealt (s + m) start p rest := by
    rcases lt_or_ge c.length (s + m) with hlt | hge
    · rw [hrest hlt]
      rfl
    · rw [show c.length = s + m by omega]
      exact dealt_congr (Nat.add_mod_right start (s + m)) p rest
  rw [dealt_append, hfirst, hthen]

theorem isSome_firstDealt (hc : c.length = s + m) (hp : p < s + m) : (firstDealt s m p c).isSome := by
  rw [firstDealt]
  split_ifs with hsp
  · rw [getElem?_eq_getElem (by rw [length_take]; omega)]
    rfl
  · rw [getElem?_eq_getElem (by rw [length_drop]; omega)]
    rfl

/-- The first element of a queue, and what is dealt to it after that. -/
theorem head?_tail_dealt (hs : start % (s + m) = s % (s + m)) (hp : p < s + m) (l : List α) :
    (dealt (s + m) start p l).head? = firstDealt s m p (l.take (s + m)) ∧
      (dealt (s + m) start p l).tail = dealt (s + m) start p (l.drop (s + m)) := by
  have hc : (l.take (s + m)).length ≤ s + m := length_take_le _ l
  have hrest : (l.take (s + m)).length < s + m → l.drop (s + m) = [] := by
    rw [length_take]
    exact fun hlt => drop_eq_nil_of_le (by omega)
  have hqueue := dealt_firstDealt (p := p) hc hs hrest
  rw [take_append_drop] at hqueue
  rw [hqueue]
  rcases Nat.lt_or_eq_of_le hc with hlt | hfull
  · rw [hrest hlt]
    cases firstDealt s m p (l.take (s + m)) <;> exact ⟨rfl, rfl⟩
  · obtain ⟨x, hx⟩ := Option.isSome_iff_exists.mp (isSome_firstDealt hfull hp)
    rw [hx]
    exact ⟨rfl, rfl⟩

/-- **Gathering what was dealt** from queue `s` on: each run of `n` elements begins at the first queue
again, so that the first `n - s` elements come after the others. -/
theorem gather_deal_add (hn : 0 < s + m) (hs : start % (s + m) = s % (s + m))
    (l : List α) : gather (deal (s + m) start l) = turned (s + m) m l := by
  fun_induction turned (s + m) m l with
  | case1 l h =>
    obtain rfl := h.resolve_left hn.ne'
    refine gather_of_nil fun q hq => ?_
    obtain ⟨p, -, rfl⟩ := mem_map.mp hq
    rfl
  | case2 l h ih =>
    have hheads : (deal (s + m) start l).filterMap head? = (l.take (s + m)).drop m ++ (l.take (s + m)).take m := by
      rw [deal, filterMap_map, ← filterMap_firstDealt (length_take_le _ l)]
      exact filterMap_congr fun p hp => (head?_tail_dealt hs (mem_range.mp hp) l).1
    have htails : tails (deal (s + m) start l) = deal (s + m) start (l.drop (s + m)) := by
      rw [tails, deal, map_map]
      exact map_congr_left fun p hp => (head?_tail_dealt hs (mem_range.mp hp) l).2
    rw [gather_eq, hheads, htails, ih]

theorem gather_deal (hn : 0 < n) (start : ℕ) (l : List α) : gather (deal n start l) = turned n (n - start % n) l := by
  have hsum : start % n + (n - start % n) = n := Nat.add_sub_cancel' (Nat.mod_lt start hn).le
  have hadd : gather (deal (start % n + (n - start % n)) start l) = _ :=
    gather_deal_add (by omega) (by rw [hsum, Nat.mod_mod]) l
  rwa [hsum] at hadd

/-! ### When the order is kept -/

/-- Each run of `n` elements stays the same if its first `m` come after the others. -/
def TurnKeeps (n m : ℕ) (l : List α) : Prop :=
  ∀ k, ((l.drop (k * n)).take n).drop m ++ ((l.drop (k * n)).take n).take m = (l.drop (k * n)).take n

theorem turnKeeps_drop (m : ℕ) (l : List α) :
    TurnKeeps n m l ↔ (l.take n).drop m ++ (l.take n).take m = l.take n ∧ TurnKeeps n m (l.drop n) := by
  have hsucc : ∀ k, (l.drop n).drop (k * n) = l.drop ((k + 1) * n) := by
    intro k
    rw [drop_drop, Nat.succ_mul, Nat.add_comm]
  constructor
  · intro h
    refine ⟨by simpa using h 0, fun k => ?_⟩
    rw [hsucc]
    exact h (k + 1)
  · rintro ⟨h0, h⟩ k
    cases k with
    | zero => simpa using h0
    | succ k =>
      rw [← hsucc]
      exact h k

theorem turned_eq_self_iff (hn : 0 < n) (m : ℕ) (l : List α) : turned n m l = l ↔ TurnKeeps n m l := by
  fun_induction turned n m l with
  | case1 l h =>
    obtain rfl := h.resolve_left hn.ne'
    exact iff_of_true rfl fun k => by simp
  | case2 l h ih =>
    have hlength : ((l.take n).drop m ++ (l.take n).take m).length = (l.take n).length := by
      rw [length_append, length_drop, length_take (l := l.take n)]
      omega
    rw [turnKeeps_drop, ← ih]
    constructor
    · intro h
      exact append_inj (h.trans (take_append_drop n l).symm) hlength
    · rintro ⟨h0, h⟩
      rw [h0, h, take_append_drop]

/-- **Gathering restores the order** exactly if turning each run does not change it. -/
theorem gather_deal_eq_self_iff (hn : 0 < n) (start : ℕ) (l : List α) :
    gather (deal n start l) = l ↔ TurnKeeps n (n - start % n) l := by
  rw [gather_deal hn, turned_eq_self_iff hn]

/-- If the elements differ, the dealing has to start at the first queue or must not pass the last. -/
theorem turnKeeps_iff_of_nodup (hs : s < n) {l : List α} (hl : l.Nodup) :
    TurnKeeps n (n - s) l ↔ s = 0 ∨ s + l.length ≤ n := by
  constructor
  · intro h
    by_contra hcond
    -- the element that comes first would be the one at `n - s`
    have hhead := congrArg head? (h 0)
    rw [Nat.zero_mul, drop_zero, head?_append, head?_drop, getElem?_take_of_lt (by omega),
      getElem?_eq_getElem (by omega : n - s < l.length), Option.some_or, head?_eq_getElem?,
      getElem?_take_of_lt (by omega), ← getElem?_eq_getElem] at hhead
    have heq : n - s = 0 := (getElem?_inj (by omega) hl).mp hhead
    omega
  · rintro (rfl | hle) k
    · rw [Nat.sub_zero, drop_eq_nil_of_le (by rw [length_take]; omega), nil_append, take_take, Nat.min_self]
    · have hshort : ((l.drop (k * n)).take n).length ≤ n - s := by
        rw [length_take, length_drop]
        omega
      rw [drop_eq_nil_of_le hshort, take_of_length_le hshort, nil_append]

end GeminiTS.Lib
