import Mathlib

/-!
# Heap — a binary heap kept in a list

The heap of Go's `container/heap`: the children of position `i` are `2 * i + 1` and `2 * i + 2`, and
`up`, `down`, `init`, `push` and `pop` compare and swap in exactly the order of that package, so that
also the order in which elements of equal rank leave the heap is the one of the package.

* `Ordered` — no child ranks below its parent; `DownOrder`, `UpOrder` — the same with a hole.
-/

namespace GeminiTS.Lib.Heap

open List

variable {α β : Type*}

/-- Exchange two positions. -/
def swap (l : List α) (i j : ℕ) : List α :=
  match l[i]?, l[j]? with
  | some a, some b => (l.set i b).set j a
  | _, _ => l

section Ops

variable (less : α → α → Bool)

/-- The element at `i` is less than the element at `j`. -/
def lessAt (l : List α) (i j : ℕ) : Bool :=
  match l[i]?, l[j]? with
  | some a, some b => less a b
  | _, _ => false

/-- Move the element at `j` towards the root. -/
def up (l : List α) (j : ℕ) : List α :=
  let i := (j - 1) / 2
  if i = j ∨ !lessAt less l j i then l else up (swap l i j) i
termination_by j
decreasing_by
  rename_i h
  have := not_or.mp h
  omega

/-- The child of `i` that goes up if one does: the left one unless the right one is less. -/
def smallerChild (l : List α) (i n : ℕ) : ℕ :=
  if 2 * i + 2 < n ∧ lessAt less l (2 * i + 2) (2 * i + 1) then 2 * i + 2 else 2 * i + 1

theorem smallerChild_eq (l : List α) (i n : ℕ) : smallerChild less l i n = 2 * i + 1 ∨
      smallerChild less l i n = 2 * i + 2 ∧ 2 * i + 2 < n := by
  unfold smallerChild
  split_ifs with h
  · exact .inr ⟨rfl, h.1⟩
  · exact .inl rfl

/-- Move the element at `i` away from the root, within the first `n` positions. -/
def down (l : List α) (i n : ℕ) : List α :=
  if n ≤ 2 * i + 1 then l
  else
    let j := smallerChild less l i n
    if !lessAt less l j i then l else down (swap l i j) j n
termination_by n - i
decreasing_by
  have := smallerChild_eq less l i n
  omega

/-- The loop of `init`: the positions below `k`, from the last one on. -/
def initFrom (n : ℕ) : ℕ → List α → List α
  | 0, l => l
  | k + 1, l => initFrom n k (down less l k n)

/-- Establish the heap order. -/
def init (l : List α) : List α := initFrom less l.length (l.length / 2) l

/-- Add an element. -/
def push (l : List α) (x : α) : List α := up less (l ++ [x]) l.length

/-- Remove the element at the root. -/
def pop (l : List α) : Option (α × List α) :=
  let n := l.length - 1
  let l := down less (swap l 0 n) 0 n
  l.getLast?.map fun x => (x, l.dropLast)

end Ops

section Swap

variable {l : List α} {i j : ℕ}

theorem swap_eq (hi : i < l.length) (hj : j < l.length) : swap l i j = (l.set i l[j]).set j l[i] := by
  simp [swap, hi, hj]

@[simp] theorem length_swap (l : List α) (i j : ℕ) : (swap l i j).length = l.length := by
  unfold swap
  split <;> simp

theorem swap_perm (l : List α) (i j : ℕ) : (swap l i j).Perm l := by
  by_cases h : i < l.length ∧ j < l.length
  · rw [swap_eq h.1 h.2]
    exact set_set_perm h.1 h.2
  · have : swap l i j = l := by
      unfold swap
      split
      · rename_i hi hj
        exact absurd ⟨(List.getElem?_eq_some_iff.mp hi).1, (List.getElem?_eq_some_iff.mp hj).1⟩ h
      · rfl
    rw [this]

theorem getElem?_swap (hi : i < l.length) (hj : j < l.length) (k : ℕ) :
    (swap l i j)[k]? = if k = i then l[j]? else if k = j then l[i]? else l[k]? := by
  rw [swap_eq hi hj]
  by_cases hki : k = i <;> by_cases hkj : k = j
  · subst hki; subst hkj; simp
  · subst hki; simp [hi, Ne.symm hkj]
  · subst hkj; simp [hj, hki]
  · simp [hki, hkj, Ne.symm hki, Ne.symm hkj]

end Swap

section Perm

variable (less : α → α → Bool)

variable (l : List α)

theorem up_perm (j : ℕ) : (up less l j).Perm l := by
  fun_induction up less l j with
  | case1 => exact .refl _
  | case2 l j i _ ih => exact ih.trans (swap_perm l i j)

theorem down_perm (i n : ℕ) : (down less l i n).Perm l := by
  fun_induction down less l i n with
  | case1 | case2 => exact .refl _
  | case3 l i _ j _ ih => exact ih.trans (swap_perm l i j)

theorem initFrom_perm (n k : ℕ) (l : List α) : (initFrom less n k l).Perm l := by
  induction k generalizing l with
  | zero => exact .refl _
  | succ k ih => exact (ih _).trans (down_perm less l k n)

theorem init_perm : (init less l).Perm l := initFrom_perm ..

theorem push_perm (x : α) : (push less l x).Perm (x :: l) := (up_perm less _ _).trans (perm_append_singleton x l)

theorem pop_perm {l l' : List α} {x : α} (h : pop less l = some (x, l')) : (x :: l').Perm l := by
  obtain ⟨y, hy, heq⟩ := Option.map_eq_some_iff.mp h
  obtain ⟨rfl, rfl⟩ := Prod.mk.inj heq
  have hsplit := dropLast_append_getLast? y hy
  refine (perm_append_singleton _ _).symm.trans ?_
  rw [hsplit]
  exact (down_perm less _ _ _).trans (swap_perm l _ _)

theorem pop_eq_none {l : List α} : pop less l = none ↔ l = [] := by
  rw [pop, Option.map_eq_none_iff, getLast?_eq_none_iff, ← length_eq_zero_iff,
    ← length_eq_zero_iff, ((down_perm less _ _ _).trans (swap_perm l _ _)).length_eq]

end Perm

section Order

variable {κ : Type*} [LinearOrder κ] (key : α → κ)

/-- `c` is a child of `p`. -/
abbrev Child (c p : ℕ) : Prop := c = 2 * p + 1 ∨ c = 2 * p + 2

/-- The element at `p` ranks at most as high as the one at `c`. -/
def LeAt (l : List α) (p c : ℕ) : Prop := ∀ a ∈ l[p]?, ∀ b ∈ l[c]?, key a ≤ key b

/-- From position `lo` on, no child among the first `n` elements ranks below its parent. -/
def Ordered (lo n : ℕ) (l : List α) : Prop := ∀ p c, Child c p → lo ≤ p → c < n → LeAt key l p c

/-- The order with a hole at `i` whose element may have to go down. -/
def DownOrder (lo n i : ℕ) (l : List α) : Prop :=
  (∀ p c, Child c p → lo ≤ p → p ≠ i → c < n → LeAt key l p c) ∧
    ∀ g c, Child i g → lo ≤ g → Child c i → c < n → LeAt key l g c

/-- The order with a hole at `j` whose element may have to go up. -/
def UpOrder (n j : ℕ) (l : List α) : Prop :=
  (∀ p c, Child c p → c ≠ j → c < n → LeAt key l p c) ∧ ∀ g c, Child j g → Child c j → c < n → LeAt key l g c

variable {key}

variable {l l' : List α} {lo n i j k p c : ℕ}

theorem LeAt.trans {a b : ℕ} (hab : LeAt key l a b) (hbc : LeAt key l b c) (hb : b < l.length) :
    LeAt key l a c := fun x hx y hy =>
  (hab x hx l[b] (by simp)).trans (hbc l[b] (by simp) y hy)

theorem LeAt.congr {p' c' : ℕ} (h : LeAt key l p c) (hp : l'[p']? = l[p]?) (hc : l'[c']? = l[c]?) :
    LeAt key l' p' c' := by
  unfold LeAt
  rw [hp, hc]
  exact h

variable {less : α → α → Bool} (hless : ∀ a b, less a b = decide (key a < key b))

include hless

theorem leAt_of_lessAt (h : lessAt less l i j) : LeAt key l i j := by
  intro a ha b hb
  rw [Option.mem_def] at ha hb
  simp only [lessAt, ha, hb, hless, decide_eq_true_eq] at h
  exact h.le

theorem leAt_of_not_lessAt (h : lessAt less l j i = false) : LeAt key l i j := by
  intro a ha b hb
  rw [Option.mem_def] at ha hb
  simp only [lessAt, ha, hb, hless, decide_eq_false_iff_not, not_lt] at h
  exact h

theorem leAt_smallerChild (hc : Child c i) (hn : c < n) : LeAt key l (smallerChild less l i n) c := by
  have hrefl : ∀ k, LeAt key l k k := by
    intro k a ha b hb
    rw [Option.some.inj (ha.symm.trans hb)]
  unfold smallerChild
  split_ifs with h
  · rcases hc with rfl | rfl
    · exact leAt_of_lessAt hless h.2
    · exact hrefl _
  · rcases hc with rfl | rfl
    · exact hrefl _
    · refine leAt_of_not_lessAt hless ?_
      rw [not_and, Bool.not_eq_true] at h
      exact h hn

omit hless in
theorem leAt_swap (hi : i < l.length) (hj : j < l.length) : LeAt key (swap l i j) p c ↔
      LeAt key l (if p = i then j else if p = j then i else p) (if c = i then j else if c = j then i else c) := by
  unfold LeAt
  rw [getElem?_swap hi hj, getElem?_swap hi hj]
  split_ifs <;> rfl

theorem DownOrder.swap (h : DownOrder key lo n i l) (hn : n ≤ l.length) (hi : 2 * i + 1 < n)
    (hlt : lessAt less l (smallerChild less l i n) i) :
    DownOrder key lo n (smallerChild less l i n) (swap l i (smallerChild less l i n)) := by
  have hmin := fun c hc hcn => leAt_smallerChild hless (l := l) (i := i) (n := n) (c := c) hc hcn
  have hchild := smallerChild_eq less l i n
  obtain ⟨j, hj⟩ : ∃ j, smallerChild less l i n = j := ⟨_, rfl⟩
  rw [hj] at hlt hmin hchild ⊢
  constructor
  · intro p c hc hlo hpj hcn
    rw [leAt_swap (by omega) (by omega)]
    split_ifs with hpi hci hcj hci hcj
    · omega
    · exact leAt_of_lessAt hless hlt
    · exact hmin c (hpi ▸ hc) hcn
    · exact h.2 p j (hci ▸ hc) hlo (by omega) (by omega)
    · omega
    · exact h.1 p c hc hlo hpi hcn
  · intro g c hg hlo hc hcn
    obtain rfl : g = i := by omega
    rw [leAt_swap (by omega) (by omega), if_pos rfl, if_neg (by omega), if_neg (by omega)]
    exact h.1 j c hc (by omega) (by omega) hcn

theorem down_ordered (h : DownOrder key lo n i l) (hn : n ≤ l.length) : Ordered key lo n (down less l i n) := by
  fun_induction down less l i n with
  | case1 l i hi =>
    intro p c hc hlo hcn
    exact h.1 p c hc hlo (by omega) hcn
  | case2 l i hi j hlt =>
    intro p c hc hlo hcn
    by_cases hp : p = i
    · subst hp
      have hpj : LeAt key l p j := leAt_of_not_lessAt hless (by simpa using hlt)
      have := smallerChild_eq less l p n
      exact hpj.trans (leAt_smallerChild hless hc hcn) (by omega)
    · exact h.1 p c hc hlo hp hcn
  | case3 l i hi j hlt ih =>
    exact ih (h.swap hless hn (by omega) (by simpa using hlt)) (by simpa using hn)

theorem UpOrder.swap (h : UpOrder key n j l) (hn : n ≤ l.length) (hj : j < n) (hchild : Child j i)
    (hlt : lessAt less l j i) : UpOrder key n i (swap l i j) := by
  have hji := leAt_of_lessAt hless hlt
  constructor
  · intro p c hc hci hcn
    rw [leAt_swap (by omega) (by omega)]
    split_ifs with hpi hcj hpj hcj hcj
    · exact hji
    · exact hji.trans (h.1 i c (hpi ▸ hc) hcj hcn) (by omega)
    · omega
    · exact h.2 i c hchild (hpj ▸ hc) hcn
    · omega
    · exact h.1 p c hc hcj hcn
  · intro g c hg hc hcn
    have hgi := h.1 g i hg (by omega) (by omega)
    rw [leAt_swap (by omega) (by omega), if_neg (by omega), if_neg (by omega), if_neg (by omega)]
    split_ifs with hcj
    · exact hgi
    · exact hgi.trans (h.1 i c hc hcj hcn) (by omega)

theorem up_ordered (h : UpOrder key n j l) (hn : n ≤ l.length) (hj : j < n) : Ordered key 0 n (up less l j) := by
  fun_induction up less l j with
  | case1 l j i hstop =>
    intro p c hc _ hcn
    by_cases hcj : c = j
    · subst hcj
      obtain rfl : p = i := by omega
      refine leAt_of_not_lessAt hless ?_
      simpa using hstop.resolve_left (by omega)
    · exact h.1 p c hc hcj hcn
  | case2 l j i hgo ih =>
    rw [not_or] at hgo
    exact ih (h.swap hless hn hj (by omega) (by simpa using hgo.2)) (by simpa using hn) (by omega)

omit hless in
theorem getElem?_down (hn : n ≤ l.length) (hk : n ≤ k) : (down less l i n)[k]? = l[k]? := by
  fun_induction down less l i n with
  | case1 | case2 => rfl
  | case3 l i hi j _ ih =>
    have := smallerChild_eq less l i n
    rw [ih (by simpa using hn), getElem?_swap (by omega) (by omega), if_neg (by omega), if_neg (by omega)]

theorem initFrom_ordered (hn : n ≤ l.length) (h : Ordered key k n l) : Ordered key 0 n (initFrom less n k l) := by
  induction k generalizing l with
  | zero => exact h
  | succ k ih =>
    refine ih (hn.trans (down_perm less l k n).length_eq.ge) (down_ordered hless ⟨?_, ?_⟩ hn)
    · intro p c hc hlo hpk hcn
      exact h p c hc (by omega) hcn
    · intro g c hg hlo _ _
      omega

variable (key) in
/-- The heap order of a whole list. -/
def IsHeap (l : List α) : Prop := Ordered key 0 l.length l

omit hless in
theorem IsHeap.root_le (h : IsHeap key l) (k : ℕ) (hk : k < l.length) : LeAt key l 0 k := by
  induction k using Nat.strong_induction_on with
  | _ k ih =>
    by_cases hzero : k = 0
    · subst hzero
      intro a ha b hb
      rw [Option.some.inj (ha.symm.trans hb)]
    · have hchild : Child k ((k - 1) / 2) := by omega
      exact (ih _ (by omega) (by omega)).trans (h _ k hchild (by omega) hk) (by omega)

theorem init_spec (l : List α) : IsHeap key (init less l) := by
  unfold IsHeap
  rw [(init_perm less l).length_eq]
  refine initFrom_ordered hless le_rfl fun p c hc hlo hcn => ?_
  omega

theorem push_spec (h : IsHeap key l) (x : α) : IsHeap key (push less l x) := by
  unfold IsHeap
  rw [(push_perm less l x).length_eq, length_cons]
  refine up_ordered hless ⟨?_, ?_⟩ (by simp) (by omega)
  · intro p c hc hcl hcn
    have hlt : c < l.length ∧ p < l.length := by omega
    exact (h p c hc (by omega) hlt.1).congr (getElem?_append_left hlt.2) (getElem?_append_left hlt.1)
  · intro g c _ hc hcn
    omega

/-- **`pop` takes an element of least rank and leaves a heap of the others.** -/
theorem pop_spec {x : α} (h : IsHeap key l) (hpop : pop less l = some (x, l')) :
    IsHeap key l' ∧ ∀ y ∈ l', key x ≤ key y := by
  have hperm := pop_perm less hpop
  have hlen : l'.length = l.length - 1 := by simp [← hperm.length_eq]
  have hpos : 0 < l.length := by simp [← hperm.length_eq]
  obtain ⟨n, hn⟩ : ∃ n, l.length - 1 = n := ⟨_, rfl⟩
  obtain ⟨y, hy, heq⟩ := Option.map_eq_some_iff.mp hpop
  rw [hn] at hy heq hlen
  obtain ⟨rfl, rfl⟩ := Prod.mk.inj heq
  have hdown : (down less (swap l 0 n) 0 n).length = n + 1 := by
    rw [((down_perm less _ _ _).trans (swap_perm l _ _)).length_eq]
    omega
  -- the last position is not touched by `down`, so it holds the old root
  have hroot : l[0]? = some y := by
    rw [getLast?_eq_getElem?, hdown, Nat.add_sub_cancel,
      getElem?_down (by simp; omega) le_rfl, getElem?_swap (by omega) (by omega), if_pos rfl] at hy
    split_ifs at hy with h0
    · rw [← hy, h0]
    · exact hy
  constructor
  · have hord : Ordered key 0 n (down less (swap l 0 n) 0 n) := by
      refine down_ordered hless ⟨?_, ?_⟩ (by simp; omega)
      · intro p c hc _ hp hcn
        rw [leAt_swap (by omega) (by omega), if_neg hp, if_neg (by omega), if_neg (by omega), if_neg (by omega)]
        exact h p c hc (by omega) (by omega)
      · intro g c hg
        omega
    intro p c hc hlo hcn
    rw [hlen] at hcn
    have hpn : p < n := by omega
    exact (hord p c hc hlo hcn).congr (by simp [hdown, hpn]) (by simp [hdown, hcn])
  · intro z hz
    obtain ⟨k, hk, rfl⟩ := getElem_of_mem (hperm.subset (mem_cons_of_mem _ hz))
    exact h.root_le k hk y (by simp [hroot]) l[k] (by simp)

end Order

section Map

variable {less : α → α → Bool} {less' : β → β → Bool} {g : α → β} (hg : ∀ a b, less' (g a) (g b) = less a b)

theorem swap_map (l : List α) (i j : ℕ) : swap (l.map g) i j = (swap l i j).map g := by
  unfold swap
  rw [getElem?_map, getElem?_map]
  cases l[i]? <;> cases l[j]? <;> simp

include hg

variable (l : List α)

include l

theorem lessAt_map (i j : ℕ) : lessAt less' (l.map g) i j = lessAt less l i j := by
  unfold lessAt
  rw [getElem?_map, getElem?_map]
  cases l[i]? <;> cases l[j]? <;> simp [hg]

theorem up_map (j : ℕ) : up less' (l.map g) j = (up less l j).map g := by
  fun_induction up less l j with
  | case1 l j i h => rw [up, if_pos (by rw [lessAt_map hg]; exact h)]
  | case2 l j i h ih => rw [up, if_neg (by rw [lessAt_map hg]; exact h), swap_map]; exact ih

theorem down_map (i n : ℕ) : down less' (l.map g) i n = (down less l i n).map g := by
  have hchild : ∀ (l : List α) i, smallerChild less' (l.map g) i n = smallerChild less l i n := by
    intro l i
    simp only [smallerChild, lessAt_map hg]
  fun_induction down less l i n with
  | case1 l i h => rw [down, if_pos h]
  | case2 l i h j hlt =>
    rw [down, if_neg h]
    simp only [hchild, lessAt_map hg]
    exact if_pos hlt
  | case3 l i h j hlt ih =>
    rw [down, if_neg h]
    simp only [hchild, lessAt_map hg, swap_map]
    exact (if_neg hlt).trans ih

theorem init_map : init less' (l.map g) = (init less l).map g := by
  have hfrom : ∀ (n k : ℕ) l, initFrom less' n k (l.map g) = (initFrom less n k l).map g := by
    intro n k
    induction k with
    | zero => intro l; rfl
    | succ k ih => intro l; rw [initFrom, down_map hg, ih]; rfl
  rw [init, length_map, hfrom]
  rfl

theorem push_map (x : α) : push less' (l.map g) (g x) = (push less l x).map g := by
  rw [push, length_map, ← map_singleton, ← map_append, up_map hg]
  rfl

theorem pop_map : pop less' (l.map g) = (pop less l).map fun p => (g p.1, p.2.map g) := by
  simp only [pop, length_map, swap_map, down_map hg, getLast?_map, Option.map_map, map_dropLast, Function.comp_def]

end Map

end GeminiTS.Lib.Heap
