import GeminiTS.Record.Basic

/-!
# Chunk — the rows of one series in one file

A chunk of a TSSP file holds the columns of one series cut into segments; all columns are cut at the
same rows as the time column, which is stored last and is a field of its own here.
-/

namespace GeminiTS

open Lib

variable {F V : Type*} [LinearOrder F]

/-- The columns of a series in a file, each cut into segments. -/
structure Chunk (F V : Type*) where
  cols : List (F × List (ColVal V))
  timeSegs : List (List ℤ)

namespace Chunk

/-- The whole time column. -/
def times (c : Chunk F V) : List ℤ := c.timeSegs.flatten

/-- The chunk as one record. -/
def record (c : Chunk F V) : Record F V := ⟨c.cols.map fun p => (p.1, p.2.flatten), c.times⟩

/-- The rows of a chunk. -/
def rows (c : Chunk F V) : List (ℤ × Row F V) := c.record.rows

/-- A chunk as a version of the series. -/
def table (c : Chunk F V) : Table ℤ F V := toTable c.rows

/-- The value of a field at a time; null without the column or the row. -/
def value (c : Chunk F V) (f : F) (t : ℤ) : Option V :=
  match c.cols.lookup f with
  | some segs => valueAt c.times segs.flatten t
  | none => none

/-- What a file promises: column names ascend, every column is cut like the time column, there is
a segment and none is empty, times ascend strictly and are 64-bit. -/
structure WF (c : Chunk F V) : Prop where
  names : (c.cols.map Prod.fst).Pairwise (· < ·)
  aligned : ∀ p ∈ c.cols, p.2.map List.length = c.timeSegs.map List.length
  seg_ne : ∀ s ∈ c.timeSegs, s ≠ []
  ne : c.timeSegs ≠ []
  ascending : c.times.Pairwise (· < ·)
  int64 : ∀ t ∈ c.times, minInt64 ≤ t ∧ t ≤ maxInt64

instance (c : Chunk F V) : Decidable c.WF :=
  decidable_of_iff (_ ∧ _ ∧ _ ∧ _ ∧ _ ∧ _)
    ⟨fun ⟨h1, h2, h3, h4, h5, h6⟩ => ⟨h1, h2, h3, h4, h5, h6⟩, fun ⟨h1, h2, h3, h4, h5, h6⟩ => ⟨h1, h2, h3, h4, h5, h6⟩⟩

variable {c : Chunk F V}

@[simp] theorem map_fst_rows (c : Chunk F V) : c.rows.map Prod.fst = c.times := c.record.map_fst_rows

theorem value_of_lookup {f : F} {segs : List (ColVal V)} (h : c.cols.lookup f = some segs) (t : ℤ) :
    c.value f t = valueAt c.times segs.flatten t := by
  rw [value, h]

theorem value_of_lookup_none {f : F} (h : c.cols.lookup f = none) (t : ℤ) : c.value f t = none := by
  rw [value, h]

theorem value_of_notMem {f : F} {t : ℤ} (h : t ∉ c.times) : c.value f t = none := by
  cases hl : c.cols.lookup f with
  | none => exact value_of_lookup_none hl t
  | some segs => rw [value_of_lookup hl, valueAt_of_notMem h]

namespace WF

variable (hc : c.WF)

include hc

theorem nodup : c.times.Nodup := hc.ascending.imp fun h => h.ne

theorem times_ne : c.times ≠ [] := by
  intro h
  obtain ⟨s, hs⟩ := List.exists_mem_of_ne_nil _ hc.ne
  exact hc.seg_ne s hs (List.flatten_eq_nil_iff.mp h s hs)

theorem length_flatten {f : F} {segs : List (ColVal V)} (h : (f, segs) ∈ c.cols) :
    segs.flatten.length = c.times.length := by
  rw [times, List.length_flatten, List.length_flatten]
  exact congrArg List.sum (hc.aligned _ h)

theorem record_wf : c.record.WF where
  aligned := by
    intro p hp
    obtain ⟨⟨f, segs⟩, hmem, rfl⟩ := List.mem_map.mp hp
    exact hc.length_flatten hmem
  ordered := by
    simpa [Record.schema, record, Function.comp_def] using hc.names

theorem cell_table (t : ℤ) (f : F) : Table.cell c.table t f = c.value f t := by
  have hasc : c.record.times.Pairwise (before true) := hc.ascending
  have hcell := Record.cell_toTable_rows hc.record_wf hasc t f
  rw [table, rows, hcell]
  have hlookup : c.record.cols.lookup f = (c.cols.lookup f).map List.flatten := lookup_map_snd List.flatten c.cols f
  rw [Record.column, hlookup]
  cases hl : c.cols.lookup f with
  | some segs => rw [value_of_lookup hl]; rfl
  | none =>
    rw [value_of_lookup_none hl]
    exact valueAt_replicate_none _ t

end WF

theorem table_isSome {t : ℤ} : (c.table t).isSome ↔ t ∈ c.times := c.record.toTable_rows_isSome

end Chunk

end GeminiTS
