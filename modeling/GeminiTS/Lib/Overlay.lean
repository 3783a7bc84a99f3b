import Mathlib

/-!
# Overlay — tables of versioned rows in which the newer cell wins

A row assigns a value or null to every field; a table assigns a row to some of the keys.

* `Row.overlay new old` / `Table.overlay new old` — lay a newer version over an older one: a null cell
  lets the older cell show through, a key is present if either version holds it.
-/

namespace GeminiTS.Lib

open List

variable {K F V : Type*}

/-- One row: a value or null for every field. -/
abbrev Row (F V : Type*) := F → Option V

/-- A row for some of the keys. -/
abbrev Table (K F V : Type*) := K → Option (Row F V)

namespace Row

/-- Lay `new` over `old`: the null cells of `new` let `old` show through. -/
def overlay (new old : Row F V) : Row F V := fun f => (new f).or (old f)

theorem overlay_apply (new old : Row F V) (f : F) : overlay new old f = (new f).or (old f) := rfl

theorem overlay_assoc (a b c : Row F V) : overlay (overlay a b) c = overlay a (overlay b c) := by
  funext f
  simp [overlay_apply, Option.or_assoc]

end Row

namespace Table

/-- The table without keys. -/
def empty : Table K F V := fun _ => none

@[simp] theorem empty_apply (k : K) : (empty : Table K F V) k = none := rfl

/-- Lay `new` over `old`, key by key. -/
def overlay (new old : Table K F V) : Table K F V := fun k =>
  match new k, old k with
  | none, o => o
  | some n, none => some n
  | some n, some o => some (n.overlay o)

section Apply

variable {new old : Table K F V} {k : K}

theorem overlay_of_none (h : new k = none) : overlay new old k = old k := by
  simp [overlay, h]

theorem overlay_of_none_right (h : old k = none) : overlay new old k = new k := by
  cases hn : new k <;> simp [overlay, h, hn]

end Apply

variable (t : Table K F V)

@[simp] theorem empty_overlay : overlay empty t = t := by
  funext k
  exact overlay_of_none rfl

@[simp] theorem overlay_empty : overlay t empty = t := by
  funext k
  exact overlay_of_none_right rfl

theorem overlay_assoc (a b c : Table K F V) : overlay (overlay a b) c = overlay a (overlay b c) := by
  funext k
  cases ha : a k <;> cases hb : b k <;> cases hc : c k <;> simp [overlay, ha, hb, hc, Row.overlay_assoc]

theorem overlay_isSome {new old : Table K F V} {k : K} :
    (overlay new old k).isSome ↔ (new k).isSome ∨ (old k).isSome := by
  cases hn : new k <;> cases ho : old k <;> simp [overlay, hn, ho]

/-- The cell at a key and a field; null where the key is absent. -/
def cell (t : Table K F V) (k : K) (f : F) : Option V := (t k).bind (· f)

theorem cell_overlay (new old : Table K F V) (k : K) (f : F) :
    cell (overlay new old) k f = (cell new k f).or (cell old k f) := by
  cases hn : new k <;> cases ho : old k <;> simp [cell, overlay, hn, ho, Row.overlay_apply]

theorem ext_cell {s t : Table K F V} (hk : ∀ k, (s k).isSome ↔ (t k).isSome)
    (hc : ∀ k f, cell s k f = cell t k f) : s = t := by
  funext k
  have hkk := hk k
  have hcc := hc k
  cases hs : s k with
  | none => cases ht : t k with
    | none => rfl
    | some b => simp [hs, ht] at hkk
  | some a => cases ht : t k with
    | none => simp [hs, ht] at hkk
    | some b =>
      have : a = b := by
        funext f
        simpa [cell, hs, ht] using hcc f
      rw [this]

/-- The overlay of a list of versions, oldest first. -/
def newest (versions : List (Table K F V)) : Table K F V := versions.foldl (fun acc t => overlay t acc) empty

@[simp] theorem newest_nil : newest ([] : List (Table K F V)) = empty := rfl

theorem foldl_overlay (versions : List (Table K F V)) (base : Table K F V) :
    versions.foldl (fun acc t => overlay t acc) base = overlay (newest versions) base := by
  induction versions using reverseRecOn with
  | nil => simp
  | append_singleton vs v ih => simp [newest, foldl_append, overlay_assoc, ih]

theorem newest_append (xs ys : List (Table K F V)) : newest (xs ++ ys) = overlay (newest ys) (newest xs) := by
  rw [newest, foldl_append]
  exact foldl_overlay ys _

theorem newest_singleton : newest [t] = t := by simp [newest]

theorem newest_cons (ts : List (Table K F V)) : newest (t :: ts) = overlay (newest ts) t := by
  rw [← singleton_append, newest_append, newest_singleton]

theorem newest_concat (ts : List (Table K F V)) (t : Table K F V) : newest (ts ++ [t]) = overlay t (newest ts) := by
  rw [newest_append, newest_singleton]

theorem newest_isSome {ts : List (Table K F V)} {k : K} : (newest ts k).isSome ↔ ∃ t ∈ ts, (t k).isSome := by
  induction ts with
  | nil => simp
  | cons t ts ih => simp [newest_cons, overlay_isSome, ih, or_comm]

/-- **The cell of an overlay is the last non-null cell among its versions.** -/
theorem cell_newest (ts : List (Table K F V)) (k : K) (f : F) :
    cell (newest ts) k f = ts.reverse.findSome? fun t => cell t k f := by
  induction ts using reverseRecOn with
  | nil => simp [cell]
  | append_singleton ts t ih =>
    rw [newest_concat, cell_overlay, ih]
    cases h : cell t k f <;> simp [h]

/-! ### Taking some versions out of their order -/

section Split

variable {α : Type*} (T : α → Table K F V) (p : α → Bool) (l : List α) (k : K) (f : F)

/-- A cell of an overlay comes from the versions with `p` or from those without. -/
theorem cell_newest_split : cell (newest (l.map T)) k f = cell (newest ((l.filter p).map T)) k f ∨
      cell (newest (l.map T)) k f = cell (newest ((l.filter fun a => !p a).map T)) k f := by
  induction l using reverseRecOn with
  | nil => exact .inl rfl
  | append_singleton l a ih =>
    rw [map_append, map_singleton, newest_concat, cell_overlay, filter_append,
      filter_append, map_append, map_append, newest_append, newest_append, cell_overlay,
      cell_overlay]
    cases hp : p a
    · rw [filter_cons_of_neg (by simp [hp]), filter_cons_of_pos (by simp [hp]),
        filter_nil, filter_nil, map_nil, map_singleton, newest_singleton]
      cases hc : cell (T a) k f with
      | none => simpa [cell] using ih
      | some v => exact .inr rfl
    · rw [filter_cons_of_pos (by simp [hp]), filter_cons_of_neg (by simp [hp]),
        filter_nil, filter_nil, map_nil, map_singleton, newest_singleton]
      cases hc : cell (T a) k f with
      | none => simpa [cell] using ih
      | some v => exact .inl rfl

theorem cell_newest_isSome {ts : List (Table K F V)} {k : K} {f : F} :
    (cell (newest ts) k f).isSome ↔ ∃ t ∈ ts, (cell t k f).isSome := by
  rw [cell_newest, findSome?_isSome_iff]
  simp only [mem_reverse]

theorem cell_newest_split_isSome : ((cell (newest ((l.filter fun a => !p a).map T)) k f).or
        (cell (newest ((l.filter p).map T)) k f)).isSome ↔ (cell (newest (l.map T)) k f).isSome := by
  rw [Option.isSome_or, Bool.or_eq_true, cell_newest_isSome, cell_newest_isSome, cell_newest_isSome]
  simp only [mem_map, exists_exists_and_eq_and, mem_filter]
  constructor
  · rintro (⟨a, ha, h⟩ | ⟨a, ha, h⟩)
    · exact ⟨a, ha.1, h⟩
    · exact ⟨a, ha.1, h⟩
  · rintro ⟨a, ha, h⟩
    cases hp : p a
    · exact .inl ⟨a, ⟨ha, by simp [hp]⟩, h⟩
    · exact .inr ⟨a, ⟨ha, hp⟩, h⟩

/-- **Laying the versions without `p` over those with `p`** keeps a cell exactly when the newest cell
without `p`, if there is one, is the newest of all. -/
theorem cell_newest_split_eq_iff (base : Option V) : (cell (newest ((l.filter fun a => !p a).map T)) k f).or
        ((cell (newest ((l.filter p).map T)) k f).or base) = (cell (newest (l.map T)) k f).or base ↔
      ∀ v, cell (newest ((l.filter fun a => !p a).map T)) k f = some v → cell (newest (l.map T)) k f = some v := by
  have hsplit := cell_newest_split T p l k f
  have hsome := cell_newest_split_isSome T p l k f
  generalize cell (newest (l.map T)) k f = x at hsplit hsome ⊢
  generalize cell (newest ((l.filter p).map T)) k f = y at hsplit hsome ⊢
  generalize cell (newest ((l.filter fun a => !p a).map T)) k f = z at hsplit hsome ⊢
  cases x <;> cases y <;> cases z <;> simp_all
  exact eq_comm

end Split

end Table

end GeminiTS.Lib
