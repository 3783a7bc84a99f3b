import GeminiTS.Lib.Assoc
import GeminiTS.Lib.KeyedColumn
import GeminiTS.Lib.SortedRows

/-!
# Record — columns, records and their rows

A column is one value or null per row, a record is a list of named columns next to the column of
times (`lib/record`: `ColVal`, `Record`; the time column, always last in the schema, is a field of
its own here). Field names are the elements of any linear order; the byte layout of a column
(packed values, offsets, validity bitmap) is not part of this view.
-/

namespace GeminiTS

open Lib List

variable {F V : Type*}

/-- A column: one value or null per row. -/
abbrev ColVal (V : Type*) := List (Option V)

namespace ColVal

/-- Append the rows `[start, stop)` of `src`. -/
def appendColVal (cv src : ColVal V) (start stop : ℕ) : ColVal V := cv ++ src.extract start stop

/-- Append `padLen` nulls. -/
def padColVal (cv : ColVal V) (padLen : ℕ) : ColVal V := cv ++ List.replicate padLen none

/-- Row `i` holds no value. -/
def isNil (cv : ColVal V) (i : ℕ) : Bool := cv[i]?.join.isNone

end ColVal

/-- A record: named columns and the time column. -/
structure Record (F V : Type*) where
  cols : List (F × ColVal V)
  times : List ℤ
deriving DecidableEq, Repr

namespace Record

/-- Number of rows (`Record.RowNums`). -/
def rowNums (r : Record F V) : ℕ := r.times.length

variable (r : Record F V) (names : List F)

@[simp] theorem rowNums_eq : r.rowNums = r.times.length := rfl

/-- A record of a given schema without rows. -/
def ofSchema (names : List F) : Record F V := ⟨names.map fun n => (n, []), []⟩

/-- The field names. -/
def schema (r : Record F V) : List F := r.cols.map Prod.fst

@[simp] theorem schema_ofSchema : (ofSchema names : Record F V).schema = names := by
  simp [schema, ofSchema, Function.comp_def]

@[simp] theorem times_ofSchema : (ofSchema names : Record F V).times = [] := rfl

/-- Rows `[start, stop)` of a record (`SliceFromRecord`). -/
def sliceFromRecord (r : Record F V) (start stop : ℕ) : Record F V :=
  ⟨r.cols.map fun p => (p.1, p.2.extract start stop), r.times.extract start stop⟩

theorem schema_sliceFromRecord (start stop : ℕ) : (r.sliceFromRecord start stop).schema = r.schema := by
  simp [schema, sliceFromRecord]

section View

variable [DecidableEq F]

/-- The column of a field; a field outside the schema reads as nulls. -/
def column (r : Record F V) (f : F) : ColVal V := (r.cols.lookup f).getD (List.replicate r.rowNums none)

/-- Row `i` of the record. -/
def row (r : Record F V) (i : ℕ) : Row F V := fun f => (r.column f)[i]?.join

/-- The rows of a record, with their times. -/
def rows (r : Record F V) : List (ℤ × Row F V) := r.times.mapIdx fun i t => (t, r.row i)

@[simp] theorem length_rows (r : Record F V) : r.rows.length = r.times.length := by
  simp [rows]

@[simp] theorem map_fst_rows (r : Record F V) : r.rows.map Prod.fst = r.times := by
  refine ext_getElem? fun i => ?_
  cases h : r.times[i]? <;> simp [rows, h]

theorem getElem?_rows (r : Record F V) (i : ℕ) : r.rows[i]? = r.times[i]?.map fun t => (t, r.row i) := by
  simp [rows]

end View

/-- Columns as long as the time column, field names strictly ascending. -/
structure WF [LT F] (r : Record F V) : Prop where
  aligned : ∀ c ∈ r.cols, c.2.length = r.times.length
  ordered : r.schema.Pairwise (· < ·)

section WF

variable [LinearOrder F]

instance (r : Record F V) : Decidable r.WF := decidable_of_iff (_ ∧ _) ⟨fun h => ⟨h.1, h.2⟩, fun h => ⟨h.1, h.2⟩⟩

theorem wf_ofSchema {names : List F} (h : names.Pairwise (· < ·)) : (ofSchema names : Record F V).WF where
  aligned := by simp [ofSchema]
  ordered := by simpa using h

theorem lookup_of_mem {l : List (F × ColVal V)} (hl : (l.map Prod.fst).Pairwise (· < ·)) {f : F}
    {c : ColVal V} (h : (f, c) ∈ l) : l.lookup f = some c :=
  lookup_of_mem_of_nodup (hl.imp fun hab => hab.ne) h

theorem WF.length_column {r : Record F V} (h : r.WF) (f : F) : (r.column f).length = r.times.length := by
  unfold column
  cases hl : r.cols.lookup f with
  | none => simp
  | some c => simpa using h.aligned _ (mem_of_lookup hl)

theorem WF.of_length_column {r : Record F V} (hs : r.schema.Pairwise (· < ·))
    (hc : ∀ f, (r.column f).length = r.times.length) : r.WF where
  aligned := by
    rintro ⟨f, c⟩ hmem
    have hcol : r.column f = c := by simp [column, lookup_of_mem hs hmem]
    rw [← hcol, hc]
  ordered := hs

variable {ts : List ℤ} {cs : F → ColVal V}

/-- Appending equally many rows to the time column and to every column keeps a record well
formed. -/
theorem WF.append {r u : Record F V} (hr : r.WF) (hs : u.schema = r.schema) (ht : u.times = r.times ++ ts)
    (hc : ∀ f, u.column f = r.column f ++ cs f) (hcs : ∀ f, (cs f).length = ts.length) : u.WF :=
  .of_length_column (hs ▸ hr.ordered) fun f => by
    rw [hc, ht, length_append, length_append, hr.length_column, hcs]

/-- Two records with the same times and the same columns have the same rows. -/
theorem rows_congr {r s : Record F V} (ht : r.times = s.times)
    (hc : ∀ f, r.column f = s.column f) : r.rows = s.rows := by
  have hr : r.row = s.row := by
    funext i f
    simp [row, hc]
  simp [rows, ht, hr]

/-- Rows are appended by appending to the time column and to every column. -/
theorem rows_append {r u : Record F V} (hr : r.WF) (ht : u.times = r.times ++ ts)
    (hc : ∀ f, u.column f = r.column f ++ cs f) :
    u.rows = r.rows ++ ts.mapIdx fun i t => (t, fun f => (cs f)[i]?.join) := by
  refine ext_getElem? fun i => ?_
  rw [getElem?_rows, ht, getElem?_append, getElem?_append, length_rows, getElem?_rows, getElem?_mapIdx]
  split_ifs with hi
  · have hrow : u.row i = r.row i := by
      funext f
      rw [row, row, hc, getElem?_append_left (by rw [hr.length_column]; exact hi)]
    rw [hrow]
  · have hrow : u.row i = fun f => (cs f)[i - r.times.length]?.join := by
      funext f
      rw [row, hc, getElem?_append_right (by rw [hr.length_column]; omega), hr.length_column]
    rw [hrow]

theorem extract_rows (r : Record F V) (start stop : ℕ) : r.rows.extract start stop = (r.times.extract start stop).mapIdx
      fun i t => (t, fun f => ((r.column f).extract start stop)[i]?.join) := by
  refine ext_getElem? fun i => ?_
  simp only [getElem?_mapIdx, getElem?_take, getElem?_drop, getElem?_rows]
  split_ifs <;> rfl

end WF

end Record

/-- The order of times in an ascending or a descending read. -/
def before (ascending : Bool) (s t : ℤ) : Prop := if ascending then s < t else t < s

instance (ascending : Bool) : DecidableRel (before ascending) := fun s t =>
  match ascending with
  | true => inferInstanceAs (Decidable (s < t))
  | false => inferInstanceAs (Decidable (t < s))

@[simp] theorem before_true {s t : ℤ} : before true s t ↔ s < t := Iff.rfl

@[simp] theorem before_false {s t : ℤ} : before false s t ↔ t < s := Iff.rfl

instance (ascending : Bool) : IsStrictTotalOrder ℤ (before ascending) :=
  match ascending with
  | true => inferInstanceAs (IsStrictTotalOrder ℤ (· < ·))
  | false => inferInstanceAs (IsStrictTotalOrder ℤ (· > ·))

/-! ### A record in time order as a table of rows -/

variable {F V : Type*} [LinearOrder F]

namespace Record

variable {r : Record F V} {ascending : Bool}

theorem sorted_rows (h : r.times.Pairwise (before ascending)) : Sorted (before ascending) r.rows := by
  rw [← r.map_fst_rows, pairwise_map] at h
  exact h

theorem toTable_rows_isSome (r : Record F V) {t : ℤ} : (toTable r.rows t).isSome ↔ t ∈ r.times := by
  rw [toTable_isSome_iff_mem, r.map_fst_rows]

/-- The cell of a record at a time is the value of the column there. -/
theorem cell_toTable_rows (hr : r.WF) (h : r.times.Pairwise (before ascending)) (t : ℤ) (f : F) :
    Table.cell (toTable r.rows) t f = valueAt r.times (r.column f) t := by
  have hnodup : r.times.Nodup := h.imp fun hab => ne_of_irrefl hab
  by_cases ht : t ∈ r.times
  · obtain ⟨i, hi⟩ := getElem?_of_mem ht
    have hmem : (t, r.row i) ∈ r.rows := by
      refine mem_of_getElem? (i := i) ?_
      rw [getElem?_rows, hi]
      rfl
    rw [Table.cell, (sorted_rows h).toTable_of_mem hmem, getElem?_valueAt hnodup (hr.length_column f) hi]
    rfl
  · have hnone : toTable r.rows t = none := by
      rw [← Option.not_isSome_iff_eq_none, toTable_rows_isSome]
      exact ht
    rw [Table.cell, hnone, valueAt_of_notMem ht]
    rfl

end Record

end GeminiTS
