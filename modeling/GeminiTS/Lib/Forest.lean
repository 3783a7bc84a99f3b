import Mathlib

/-!
# Forest — trees with named children

A `Forest` is the list of children of a node, each with a name, a value and its own children. A node is its value with
its children.

* `get?`, `put` — a child by its name; `sub?`, `val?` — the node and the value at a path.
-/

namespace GeminiTS.Lib

open List

/-- The children of a node: the first with its name, value and children, and the others. -/
inductive Forest (κ ν : Type)
  | nil
  | cons (key : κ) (val : ν) (child next : Forest κ ν)
  deriving DecidableEq

namespace Forest

variable {κ ν : Type}

def keys : Forest κ ν → List κ
  | nil => []
  | cons k _ _ n => k :: n.keys

/-- All nodes with their paths, parents before children. -/
def items : Forest κ ν → List (List κ × ν)
  | nil => []
  | cons k v c n => ([k], v) :: (c.items.map fun x => (k :: x.1, x.2)) ++ n.items

/-- The paths of all nodes. -/
def paths (t : Forest κ ν) : List (List κ) := t.items.map Prod.fst

theorem paths_cons (k : κ) (v : ν) (c n : Forest κ ν) :
    (cons k v c n).paths = [k] :: c.paths.map (k :: ·) ++ n.paths := by
  simp [paths, items]

variable {k : κ} {v : ν} {p : List κ}

theorem mem_paths_cons {c n : Forest κ ν} :
    p ∈ (cons k v c n).paths ↔ p = [k] ∨ p ∈ c.paths.map (k :: ·) ∨ p ∈ n.paths := by
  rw [paths_cons, cons_append, mem_cons, mem_append]

/-- The children as a list: name, value and children of each. -/
def nodes : Forest κ ν → List (κ × ν × Forest κ ν)
  | nil => []
  | cons k v c n => (k, v, c) :: n.nodes

variable {t : Forest κ ν} {x : ν × Forest κ ν}

theorem sizeOf_lt_of_mem_nodes [SizeOf κ] [SizeOf ν] {x : κ × ν × Forest κ ν} (h : x ∈ t.nodes) :
    sizeOf x.2.2 < sizeOf t := by
  induction t with
  | nil => cases h
  | cons k v c n _ ih =>
    have hcons : sizeOf (cons k v c n) = 1 + sizeOf k + sizeOf v + sizeOf c + sizeOf n := rfl
    rcases mem_cons.mp h with rfl | h
    · rw [hcons]
      change sizeOf c < _
      omega
    · have := ih h
      omega

theorem mem_paths_of_mem_nodes {x : κ × ν × Forest κ ν} (h : x ∈ t.nodes) {q : List κ} (hq : q ∈ x.2.2.paths) :
    x.1 :: q ∈ t.paths := by
  induction t with
  | nil => cases h
  | cons k v c n _ ih =>
    rw [mem_paths_cons]
    rcases mem_cons.mp h with rfl | h
    · exact .inr (.inl (mem_map_of_mem hq))
    · exact .inr (.inr (ih h))

/-- No two children of a node have the same name. -/
def Distinct : Forest κ ν → Prop
  | nil => True
  | cons k _ c n => k ∉ n.keys ∧ c.Distinct ∧ n.Distinct

/-- The length of the longest path. -/
def depth : Forest κ ν → ℕ
  | nil => 0
  | cons _ _ c n => max (c.depth + 1) n.depth

theorem length_le_depth {x : List κ × ν} (h : x ∈ t.items) : x.1.length ≤ t.depth := by
  induction t generalizing x with
  | nil => cases h
  | cons k v c n ihc ihn =>
    rw [items, cons_append, mem_cons, mem_append] at h
    rcases h with rfl | h | h
    · exact (Nat.le_add_left 1 _).trans (Nat.le_max_left _ _)
    · obtain ⟨y, hy, rfl⟩ := mem_map.mp h
      exact (Nat.succ_le_succ (ihc hy)).trans (Nat.le_max_left _ _)
    · exact (ihn h).trans (Nat.le_max_right _ _)

/-- The paths to the nodes without children. -/
def leaves : Forest κ ν → List (List κ)
  | nil => []
  | cons k _ c n => (if c.keys.isEmpty then [[k]] else c.leaves.map (k :: ·)) ++ n.leaves

theorem mem_items_of_mem_leaves (h : p ∈ t.leaves) : ∃ v, (p, v) ∈ t.items := by
  induction t generalizing p with
  | nil => cases h
  | cons k v c n ihc ihn =>
    rw [leaves, mem_append] at h
    simp only [items, cons_append, mem_cons, mem_append]
    rcases h with h | h
    · split_ifs at h
      · rw [mem_singleton.mp h]
        exact ⟨v, .inl rfl⟩
      · obtain ⟨q, hq, rfl⟩ := mem_map.mp h
        obtain ⟨w, hw⟩ := ihc hq
        exact ⟨w, .inr (.inl (mem_map.mpr ⟨_, hw, rfl⟩))⟩
    · obtain ⟨w, hw⟩ := ihn h
      exact ⟨w, .inr (.inr hw)⟩

variable [DecidableEq κ]

/-- The child with a name. -/
def get? (k : κ) : Forest κ ν → Option (ν × Forest κ ν)
  | nil => none
  | cons k' v c n => if k' = k then some (v, c) else n.get? k

/-- Set the child with a name. -/
def put (k : κ) (x : ν × Forest κ ν) : Forest κ ν → Forest κ ν
  | nil => cons k x.1 x.2 nil
  | cons k' v c n => if k' = k then cons k x.1 x.2 n else cons k' v c (n.put k x)

theorem get?_put_self (k : κ) (x : ν × Forest κ ν) (t : Forest κ ν) : (t.put k x).get? k = some x := by
  induction t with
  | nil => rw [put, get?, if_pos rfl]
  | cons k' v c n _ ih =>
    rw [put]
    split_ifs with h
    · rw [get?, if_pos rfl]
    · rw [get?, if_neg h, ih]

variable {k' : κ}

theorem get?_put_of_ne (h : k' ≠ k) (x : ν × Forest κ ν) (t : Forest κ ν) : (t.put k x).get? k' = t.get? k' := by
  induction t with
  | nil =>
    change (if k = k' then _ else none) = none
    rw [if_neg (Ne.symm h)]
  | cons k1 v c n _ ih =>
    rw [put]
    split_ifs with hk
    · rw [get?, get?, if_neg (Ne.symm h), if_neg (hk ▸ Ne.symm h)]
    · rw [get?, get?, ih]

theorem mem_keys_put : k' ∈ (t.put k x).keys ↔ k' = k ∨ k' ∈ t.keys := by
  induction t with
  | nil => simp [put, keys]
  | cons k1 v c n _ ih =>
    rw [put]
    split_ifs with hk
    · subst hk
      simp [keys]
    · simp only [keys, mem_cons]
      tauto

theorem Distinct.put (ht : t.Distinct) (k : κ) (hx : x.2.Distinct) : (t.put k x).Distinct := by
  induction t with
  | nil => exact ⟨not_mem_nil, hx, trivial⟩
  | cons k' v c n _ ih =>
    obtain ⟨hk, hc, hn⟩ := ht
    rw [Forest.put]
    split_ifs with h
    · exact ⟨h ▸ hk, hx, hn⟩
    · exact ⟨fun hmem => (mem_keys_put.mp hmem).elim h hk, hc, ih hn⟩

theorem Distinct.get? (ht : t.Distinct) (h : t.get? k = some x) : x.2.Distinct := by
  induction t with
  | nil => cases h
  | cons k' v c n _ ih =>
    rw [Forest.get?] at h
    split_ifs at h with hk
    · cases h
      exact ht.2.1
    · exact ih ht.2.2 h

theorem get?_eq_none (h : k ∉ t.keys) : t.get? k = none := by
  induction t with
  | nil => rfl
  | cons k' v c n _ ih =>
    rw [keys, mem_cons, not_or] at h
    rw [get?, if_neg (Ne.symm h.1), ih h.2]

/-- The node at a path. -/
def sub? : List κ → ν × Forest κ ν → Option (ν × Forest κ ν)
  | [], x => some x
  | k :: p, x => (x.2.get? k).bind (sub? p)

/-- The value at a path. -/
def val? (p : List κ) (x : ν × Forest κ ν) : Option ν := (sub? p x).map Prod.fst

@[simp] theorem val?_nil (x : ν × Forest κ ν) : val? [] x = some x.1 := rfl

theorem val?_cons (k : κ) (p : List κ) (x : ν × Forest κ ν) : val? (k :: p) x = (x.2.get? k).bind (val? p) := by
  rw [val?, sub?]
  cases x.2.get? k <;> rfl

section Descend

variable (d : ν) (step : List κ → ν → ν)

/-- Go down a path, creating nodes with the value `d` where there are none, and update the value of each node that is
reached, given the rest of the path. -/
def descend : List κ → ν × Forest κ ν → ν × Forest κ ν
  | [], x => x
  | k :: p, x =>
    let c := (x.2.get? k).getD (d, nil)
    (x.1, x.2.put k (descend p (step p c.1, c.2)))

theorem descend_fst (p : List κ) (x : ν × Forest κ ν) : (descend d step p x).1 = x.1 := by
  cases p <;> rfl

theorem Distinct.descend {x : ν × Forest κ ν} (hx : x.2.Distinct) (p : List κ) :
    (Forest.descend d step p x).2.Distinct := by
  induction p generalizing x with
  | nil => exact hx
  | cons k p ih =>
    have hchild : ((x.2.get? k).getD (d, nil)).2.Distinct := by
      cases hc : x.2.get? k with
      | none => exact trivial
      | some c => exact hx.get? hc
    exact Distinct.put hx k (ih hchild)

theorem val?_descend (q p : List κ) (x : ν × Forest κ ν) (hp : p ≠ []) : val? p (descend d step q x) =
      if p <+: q then some (step (q.drop p.length) ((val? p x).getD d)) else val? p x := by
  induction q generalizing p x with
  | nil => rw [descend, if_neg (mt prefix_nil.mp hp)]
  | cons k q ih =>
    obtain ⟨k', p, rfl⟩ := exists_cons_of_ne_nil hp
    rw [descend, val?_cons, val?_cons]
    by_cases hk : k' = k
    · subst hk
      rw [get?_put_self, Option.bind_some]
      by_cases hnil : p = []
      · subst hnil
        rw [val?_nil, descend_fst, if_pos (cons_prefix_cons.mpr ⟨rfl, nil_prefix⟩)]
        cases x.2.get? k' <;> rfl
      · have hval : val? p (step q ((x.2.get? k').getD (d, nil)).1, ((x.2.get? k').getD (d, nil)).2) =
            (x.2.get? k').bind (val? p) := by
          obtain ⟨k1, p, rfl⟩ := exists_cons_of_ne_nil hnil
          cases hc : x.2.get? k' with
          | none => rfl
          | some c =>
            rfl
        rw [ih p _ hnil, hval]
        by_cases hpq : p <+: q
        · rw [if_pos hpq, if_pos (cons_prefix_cons.mpr ⟨rfl, hpq⟩), length_cons, drop_succ_cons]
        · rw [if_neg hpq, if_neg (fun h => hpq (cons_prefix_cons.mp h).2)]
    · rw [get?_put_of_ne hk, if_neg (fun h => hk (cons_prefix_cons.mp h).1)]

end Descend

/-- The nodes of a forest with distinct names are the paths with a value. -/
theorem mem_items (ht : t.Distinct) {r : ν} : (p, v) ∈ t.items ↔ p ≠ [] ∧ val? p (r, t) = some v := by
  induction t generalizing r p with
  | nil =>
    cases p with
    | nil => simp [items]
    | cons k p => simp [items, val?_cons, get?]
  | cons k v' c n ihc ihn =>
    obtain ⟨hk, hc, hn⟩ := ht
    rw [items, cons_append, mem_cons, mem_append, ihn hn (r := r)]
    cases p with
    | nil =>
      refine iff_of_false ?_ fun h => h.1 rfl
      rintro (h | h | h)
      · cases h
      · obtain ⟨x, -, hx⟩ := mem_map.mp h
        cases hx
      · exact h.1 rfl
    | cons k' p =>
      rw [val?_cons, val?_cons, get?]
      by_cases hkk : k = k'
      · subst hkk
        rw [if_pos rfl, get?_eq_none hk]
        constructor
        · rintro (h | h | h)
          · cases h
            exact ⟨cons_ne_nil _ _, rfl⟩
          · obtain ⟨⟨q, w⟩, hx, heq⟩ := mem_map.mp h
            cases heq
            exact ⟨cons_ne_nil _ _, ((ihc hc).mp hx).2⟩
          · cases h.2
        · rintro ⟨-, h⟩
          by_cases hnil : p = []
          · subst hnil
            cases h
            exact .inl rfl
          · exact .inr (.inl (mem_map.mpr ⟨(p, v), (ihc hc).mpr ⟨hnil, h⟩, rfl⟩))
      · rw [if_neg hkk]
        constructor
        · rintro (h | h | h)
          · exact absurd (List.cons.inj (Prod.mk.inj h).1).1.symm hkk
          · obtain ⟨x, -, hx⟩ := mem_map.mp h
            exact absurd (List.cons.inj (Prod.mk.inj hx).1).1 hkk
          · exact h
        · exact fun h => .inr (.inr h)

end Forest

end GeminiTS.Lib
