import GeminiTS.Lib.Overlay

/-!
# SortedRows — sorted lists of keyed rows and the merge that overlays them

Rows are listed in the order of a strict total order `r` on their keys (ascending or descending
times), every key at most once.

* `Sorted r l` — the keys of `l` are strictly increasing for `r`.
* `logTable` — the table of a log, in which a later row is laid over the earlier ones; `cell_logTable` — the last
  non-null cell of a key.
-/

namespace GeminiTS.Lib

open List Table

variable {K F V : Type*}

/-- The keys of `l` are strictly increasing for `r`. -/
def Sorted (r : K → K → Prop) (l : List (K × Row F V)) : Prop := l.Pairwise fun a b => r a.1 b.1

section ToTable

variable [DecidableEq K]

/-- The table a list of rows stands for: the first row listed for a key. -/
def toTable (l : List (K × Row F V)) : Table K F V := fun k => (l.find? fun p => p.1 = k).map Prod.snd

@[simp] theorem toTable_nil : toTable ([] : List (K × Row F V)) = empty := rfl

theorem toTable_cons (p : K × Row F V) (l : List (K × Row F V)) (k : K) :
    toTable (p :: l) k = if p.1 = k then some p.2 else toTable l k := by
  by_cases h : p.1 = k <;> simp [toTable, h]

variable {l l1 l2 : List (K × Row F V)} {k : K}

theorem toTable_eq_none : toTable l k = none ↔ ∀ p ∈ l, p.1 ≠ k := by
  simp [toTable]

theorem toTable_isSome : (toTable l k).isSome ↔ ∃ p ∈ l, p.1 = k := by
  simp [toTable]

theorem toTable_isSome_iff_mem : (toTable l k).isSome ↔ k ∈ l.map Prod.fst := by
  rw [toTable_isSome, mem_map]

theorem mem_of_toTable {a : Row F V} (h : toTable l k = some a) : (k, a) ∈ l := by
  induction l with
  | nil => simp at h
  | cons p l ih =>
    rw [toTable_cons] at h
    split_ifs at h with hk
    · obtain rfl : p.2 = a := by simpa using h
      obtain rfl := hk
      exact mem_cons_self
    · exact mem_cons_of_mem _ (ih h)

theorem toTable_append (l1 l2 : List (K × Row F V)) (k : K) :
    toTable (l1 ++ l2) k = (toTable l1 k).or (toTable l2 k) := by
  induction l1 with
  | nil => simp
  | cons p l ih =>
    rw [cons_append, toTable_cons, toTable_cons, ih]
    split_ifs <;> simp

/-- Lists without a common key overlay to their concatenation, in either order. -/
theorem toTable_append_of_disjoint (h : ∀ p ∈ l1, ∀ q ∈ l2, p.1 ≠ q.1) :
    toTable (l1 ++ l2) = (toTable l2).overlay (toTable l1) := by
  funext k
  rw [toTable_append]
  cases h1 : toTable l1 k with
  | none => rw [overlay_of_none_right h1, Option.none_or]
  | some a =>
    have h2 : toTable l2 k = none := by
      rw [toTable_eq_none]
      intro q hq
      exact (h _ (mem_of_toTable h1) q hq).symm
    rw [overlay_of_none h2, h1, Option.some_or]

theorem toTable_of_notMem (h : k ∉ l.map Prod.fst) : toTable l k = none :=
  toTable_eq_none.mpr fun q hq heq => h (mem_map.mpr ⟨q, hq, heq⟩)

theorem cell_append_of_notMem_right (h : k ∉ l2.map Prod.fst) (f : F) :
    cell (toTable (l1 ++ l2)) k f = cell (toTable l1) k f := by
  rw [cell, cell, toTable_append, toTable_of_notMem h, Option.or_none]

theorem cell_append_of_notMem (h : k ∉ l1.map Prod.fst) (f : F) :
    cell (toTable (l1 ++ l2)) k f = cell (toTable l2) k f := by
  rw [cell, cell, toTable_append, toTable_of_notMem h, Option.none_or]

end ToTable

section Order

variable {r : K → K → Prop}

theorem Sorted.nil : Sorted r ([] : List (K × Row F V)) := List.Pairwise.nil

variable {l : List (K × Row F V)}

theorem sorted_cons {p : K × Row F V} : Sorted r (p :: l) ↔ (∀ q ∈ l, r p.1 q.1) ∧ Sorted r l := pairwise_cons

variable {l1 l2 : List (K × Row F V)}

theorem sorted_append : Sorted r (l1 ++ l2) ↔
      Sorted r l1 ∧ Sorted r l2 ∧ ∀ p ∈ l1, ∀ q ∈ l2, r p.1 q.1 := pairwise_append

variable [IsStrictTotalOrder K r]

theorem Sorted.nodup (h : Sorted r l) : l.Nodup := by
  refine List.Pairwise.imp ?_ h
  rintro a b hab rfl
  exact irrefl_of r a.1 hab

variable {q : K × Row F V} {k : K}

theorem Sorted.rel_of_rel (h : Sorted r (q :: l)) (hk : r k q.1) : ∀ s ∈ q :: l, r k s.1 := by
  intro s hs
  rcases mem_cons.mp hs with rfl | hs
  · exact hk
  · exact trans_of r hk ((sorted_cons.mp h).1 s hs)

variable [DecidableEq K]

theorem Sorted.toTable_of_rel (h : Sorted r (q :: l)) (hk : r k q.1) : toTable (q :: l) k = none :=
  toTable_eq_none.mpr fun s hs => (ne_of_irrefl (h.rel_of_rel hk s hs)).symm

theorem Sorted.toTable_of_mem (hl : Sorted r l) {a : Row F V} (h : (k, a) ∈ l) : toTable l k = some a := by
  induction l with
  | nil => simp at h
  | cons p l ih =>
    rw [sorted_cons] at hl
    rw [toTable_cons]
    rcases mem_cons.mp h with rfl | h
    · simp
    · rw [if_neg (ne_of_irrefl (hl.1 _ h))]
      exact ih hl.2 h

theorem Sorted.mem_iff (hl : Sorted r l) {p : K × Row F V} :
    p ∈ l ↔ toTable l p.1 = some p.2 := ⟨hl.toTable_of_mem, mem_of_toTable⟩

/-- **A sorted list of rows is determined by the table it stands for.** -/
theorem Sorted.ext (h1 : Sorted r l1) (h2 : Sorted r l2) (h : toTable l1 = toTable l2) : l1 = l2 := by
  have hperm : l1 ~ l2 := by
    rw [perm_ext_iff_of_nodup h1.nodup h2.nodup]
    intro p
    rw [h1.mem_iff, h2.mem_iff, h]
  exact hperm.eq_of_pairwise (fun _ _ _ _ hab hba => absurd hba (asymm_of r hab)) h1 h2

end Order

section Merge

variable (r : K → K → Prop) [DecidableRel r]

/-- The merge of two sorted lists; at equal keys the row of `new` is laid over that of `old`. -/
def merge : List (K × Row F V) → List (K × Row F V) → List (K × Row F V)
  | [], old => old
  | new, [] => new
  | p :: new, q :: old =>
    if r p.1 q.1 then p :: merge new (q :: old)
    else if r q.1 p.1 then q :: merge (p :: new) old
    else (p.1, p.2.overlay q.2) :: merge new old
termination_by new old => new.length + old.length

@[simp] theorem merge_nil_left (old : List (K × Row F V)) : merge r [] old = old := by
  rw [merge]

@[simp] theorem merge_nil_right (new : List (K × Row F V)) : merge r new [] = new := by
  cases new <;> simp [merge]

variable {r}

variable {p : K × Row F V} {old new : List (K × Row F V)}

variable {pre : List (K × Row F V)} {q : K × Row F V}

theorem merge_cons_of_rel (h : r p.1 q.1) (new old : List (K × Row F V)) :
    merge r (p :: new) (q :: old) = p :: merge r new (q :: old) := by
  rw [merge, if_pos h]

theorem key_mem_of_mem_merge (h : p ∈ merge r new old) : ∃ q ∈ new ++ old, q.1 = p.1 := by
  fun_induction merge r new old with
  | case1 old | case2 new _ => exact ⟨p, by simpa using h, rfl⟩
  | case3 a new b old _ ih | case4 a new b old _ _ ih =>
    rcases mem_cons.mp h with rfl | h
    · exact ⟨p, by simp, rfl⟩
    · obtain ⟨q, hq, e⟩ := ih h
      exact ⟨q, by simp at hq ⊢; tauto, e⟩
  | case5 a new b old _ _ ih =>
    rcases mem_cons.mp h with rfl | h
    · exact ⟨a, by simp, rfl⟩
    · obtain ⟨q, hq, e⟩ := ih h
      exact ⟨q, by simp at hq ⊢; tauto, e⟩

theorem length_merge_le (new old : List (K × Row F V)) : (merge r new old).length ≤ new.length + old.length := by
  fun_induction merge r new old <;> simp only [length_nil, length_cons] at * <;> omega

theorem merge_ne_nil (h : new ≠ []) : merge r new old ≠ [] := by
  fun_cases merge r new old with
  | case1 => exact absurd rfl h
  | case2 => exact h
  | case3 | case4 | case5 => exact cons_ne_nil _ _

theorem merge_append_left (h : ∀ p ∈ pre, ∀ q ∈ old, r p.1 q.1) :
    merge r (pre ++ new) old = pre ++ merge r new old := by
  cases old with
  | nil => simp
  | cons q old =>
    induction pre with
    | nil => rfl
    | cons p pre ih =>
      rw [cons_append, merge_cons_of_rel (h p (by simp) q (by simp)),
        ih fun s hs => h s (mem_cons_of_mem _ hs), cons_append]

/-- What comes before everything in both lists comes before everything in their merge. -/
theorem rel_merge {k : K} (hn : ∀ q ∈ new, r k q.1) (ho : ∀ q ∈ old, r k q.1) : ∀ p ∈ merge r new old, r k p.1 := by
  intro p hp
  obtain ⟨q, hq, e⟩ := key_mem_of_mem_merge hp
  rw [← e]
  rcases mem_append.mp hq with hq | hq
  · exact hn q hq
  · exact ho q hq

theorem merge_cons_of_key_eq [IsStrictTotalOrder K r] (h : p.1 = q.1) (new old : List (K × Row F V)) :
    merge r (p :: new) (q :: old) = (p.1, p.2.overlay q.2) :: merge r new old := by
  rw [merge, if_neg (h ▸ irrefl_of r _), if_neg (h ▸ irrefl_of r _)]

variable [IsStrictTotalOrder K r]

theorem merge_cons_of_rel_right (h : r q.1 p.1) (new old : List (K × Row F V)) :
    merge r (p :: new) (q :: old) = q :: merge r (p :: new) old := by
  rw [merge, if_neg (asymm_of r h), if_pos h]

theorem merge_append_right (h : ∀ p ∈ pre, ∀ q ∈ new, r p.1 q.1) :
    merge r new (pre ++ old) = pre ++ merge r new old := by
  cases new with
  | nil => simp
  | cons q new =>
    induction pre with
    | nil => rfl
    | cons p pre ih =>
      rw [cons_append, merge_cons_of_rel_right (h p (by simp) q (by simp)),
        ih fun s hs => h s (mem_cons_of_mem _ hs), cons_append]

/-- **A merge can be cut at a key.** -/
theorem merge_append {new1 old1 new2 old2 : List (K × Row F V)}
    (h : ∀ p ∈ new1 ++ old1, ∀ q ∈ new2 ++ old2, r p.1 q.1) :
    merge r (new1 ++ new2) (old1 ++ old2) = merge r new1 old1 ++ merge r new2 old2 := by
  fun_induction merge r new1 old1 with
  | case1 old1 =>
    exact merge_append_right fun p hp q hq => h p hp q (mem_append_left _ hq)
  | case2 new1 _ =>
    exact merge_append_left fun p hp q hq =>
      h p (mem_append_left _ hp) q (mem_append_right _ hq)
  | case3 p new1 q old1 hpq ih =>
    rw [cons_append, cons_append, merge_cons_of_rel hpq]
    exact congrArg _ (ih fun s hs => h s (by simp at hs ⊢; tauto))
  | case4 p new1 q old1 _ hqp ih =>
    rw [cons_append, cons_append, merge_cons_of_rel_right hqp]
    exact congrArg _ (ih fun s hs => h s (by simp at hs ⊢; tauto))
  | case5 p new1 q old1 hpq hqp ih =>
    have hk : p.1 = q.1 := Std.Trichotomous.trichotomous _ _ hpq hqp
    rw [cons_append, cons_append, merge_cons_of_key_eq hk]
    exact congrArg _ (ih fun s hs => h s (by simp at hs ⊢; tauto))

theorem Sorted.merge (hn : Sorted r new) (ho : Sorted r old) : Sorted r (merge r new old) := by
  fun_induction Lib.merge r new old with
  | case1 old => exact ho
  | case2 new _ => exact hn
  | case3 p new q old hpq ih =>
    have hn' := sorted_cons.mp hn
    exact sorted_cons.mpr ⟨rel_merge hn'.1 (ho.rel_of_rel hpq), ih hn'.2 ho⟩
  | case4 p new q old _ hqp ih =>
    have ho' := sorted_cons.mp ho
    exact sorted_cons.mpr ⟨rel_merge (hn.rel_of_rel hqp) ho'.1, ih hn ho'.2⟩
  | case5 p new q old hpq hqp ih =>
    have hn' := sorted_cons.mp hn
    have ho' := sorted_cons.mp ho
    have hk : p.1 = q.1 := Std.Trichotomous.trichotomous _ _ hpq hqp
    refine sorted_cons.mpr ⟨rel_merge hn'.1 ?_, ih hn'.2 ho'.2⟩
    simpa [hk] using ho'.1

/-- **The merge stands for the overlay of the two tables.** -/
theorem toTable_merge [DecidableEq K] (hn : Sorted r new)
    (ho : Sorted r old) : toTable (merge r new old) = (toTable new).overlay (toTable old) := by
  fun_induction Lib.merge r new old with
  | case1 old | case2 new _ => simp
  | case3 p new q old hpq ih =>
    have hn' := sorted_cons.mp hn
    funext k
    rw [toTable_cons, ih hn'.2 ho]
    by_cases hk : p.1 = k
    · subst hk
      rw [if_pos rfl, overlay_of_none_right (ho.toTable_of_rel hpq), toTable_cons, if_pos rfl]
    · simp [overlay, toTable_cons, hk]
  | case4 p new q old _ hqp ih =>
    have ho' := sorted_cons.mp ho
    funext k
    rw [toTable_cons, ih hn ho'.2]
    by_cases hk : q.1 = k
    · subst hk
      rw [if_pos rfl, overlay_of_none (hn.toTable_of_rel hqp), toTable_cons, if_pos rfl]
    · simp [overlay, toTable_cons, hk]
  | case5 p new q old hpq hqp ih =>
    have hk : p.1 = q.1 := Std.Trichotomous.trichotomous _ _ hpq hqp
    funext k
    rw [toTable_cons, ih (sorted_cons.mp hn).2 (sorted_cons.mp ho).2]
    by_cases hpk : p.1 = k
    · simp [overlay, toTable_cons, hpk, ← hk]
    · simp [overlay, toTable_cons, hpk, ← hk]

end Merge

/-! ### Rows in the order they were written -/

section RowLog

variable [DecidableEq K]

/-- The table of a log: later rows are laid over earlier ones. -/
def logTable (l : List (K × Row F V)) : Table K F V := Table.newest (l.map fun p => toTable [p])

@[simp] theorem logTable_nil : logTable ([] : List (K × Row F V)) = empty := rfl

theorem logTable_append (l1 l2 : List (K × Row F V)) : logTable (l1 ++ l2) = (logTable l2).overlay (logTable l1) := by
  rw [logTable, map_append, newest_append]
  rfl

theorem logTable_flatten (ls : List (List (K × Row F V))) : logTable ls.flatten = newest (ls.map logTable) := by
  induction ls with
  | nil => rfl
  | cons l ls ih => rw [flatten_cons, logTable_append, ih, map_cons, newest_cons]

theorem cell_toTable_singleton (p : K × Row F V) (k : K) (f : F) :
    cell (toTable [p]) k f = if p.1 = k then p.2 f else none := by
  rw [cell, toTable_cons]
  split_ifs <;> rfl

/-- The cell of a log is the last non-null one written under the key. -/
theorem cell_logTable (l : List (K × Row F V)) (k : K) (f : F) :
    cell (logTable l) k f = l.reverse.findSome? fun p => if p.1 = k then p.2 f else none := by
  rw [logTable, cell_newest, ← map_reverse, findSome?_map]
  congr 1
  funext p
  exact cell_toTable_singleton p k f

theorem logTable_isSome {l : List (K × Row F V)} {k : K} : (logTable l k).isSome ↔ k ∈ l.map Prod.fst := by
  simp only [logTable, newest_isSome, mem_map, exists_exists_and_eq_and, toTable_isSome, mem_singleton, exists_eq_left]

theorem Sorted.logTable {r : K → K → Prop} [IsStrictTotalOrder K r] {l : List (K × Row F V)}
    (h : Sorted r l) : logTable l = toTable l := by
  induction l with
  | nil => rfl
  | cons p l ih =>
    rw [sorted_cons] at h
    rw [← singleton_append, logTable_append, ih h.2, toTable_append_of_disjoint fun a ha b hb => ?_]
    · rw [Lib.logTable, map_singleton, newest_singleton]
    · rw [mem_singleton.mp ha]
      exact ne_of_irrefl (h.1 b hb)

end RowLog

end GeminiTS.Lib
