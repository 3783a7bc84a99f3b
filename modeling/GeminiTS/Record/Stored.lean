import GeminiTS.Record.RecordMerge

/-!
# Stored — records that can be written to a file, and cutting them
-/

namespace GeminiTS

open Lib List

variable {F V : Type*} [LinearOrder F]

namespace Record

/-- A record of rows in strictly ascending times, each holding a value. -/
structure Stored (rec : Record F V) : Prop where
  wf : rec.WF
  ascending : rec.times.Pairwise (· < ·)
  nonempty : rec.times ≠ []
  valued : ∀ p ∈ rec.rows, ∃ f, p.2 f ≠ none

section

variable {rec : Record F V} (h : rec.Stored)

include h

theorem Stored.rows_ne_nil : rec.rows ≠ [] := by
  intro hn
  have hlen := rec.length_rows
  rw [hn] at hlen
  exact h.nonempty (eq_nil_of_length_eq_zero hlen.symm)

theorem Stored.cols_ne_nil : rec.cols ≠ [] := by
  obtain ⟨p, hp⟩ := exists_mem_of_ne_nil _ h.rows_ne_nil
  obtain ⟨f, hf⟩ := h.valued p hp
  obtain ⟨i, hi⟩ := mem_iff_getElem?.mp hp
  rw [getElem?_rows] at hi
  obtain ⟨t, ht, rfl⟩ := Option.map_eq_some_iff.mp hi
  intro hcols
  apply hf
  show (rec.column f)[i]?.join = none
  rw [column, hcols, lookup_nil, Option.getD_none, getElem?_replicate]
  split_ifs <;> rfl

theorem Stored.checkRecord : rec.checkRecord = some rec := h.wf.checkRecord h.cols_ne_nil

end

variable {r part : Record F V} {i : ℕ}

/-- A record with some of the rows, at least one, can be stored as well. -/
theorem Stored.of_sublist {rec : Record F V} (h : rec.Stored) (hwf : part.WF) (hsub : part.rows.Sublist rec.rows)
    (hne : part.times ≠ []) : part.Stored where
  wf := hwf
  ascending := by
    have := h.ascending
    rw [← map_fst_rows] at this ⊢
    exact this.sublist (hsub.map _)
  nonempty := hne
  valued p hp := h.valued p (hsub.subset hp)

/-! ### Dropping columns without a value -/

/-- Keep the columns in which some row has a value (`NilCount != Len`). -/
def dropNil (cols : List (F × ColVal V)) : List (F × ColVal V) := cols.filter fun c => !c.2.all Option.isNone

omit [LinearOrder F] in
theorem map_fst_dropNil_sublist (cols : List (F × ColVal V)) :
    ((dropNil cols).map Prod.fst).Sublist (cols.map Prod.fst) := filter_sublist.map _

theorem lookup_dropNil {cols : List (F × ColVal V)} (h : (cols.map Prod.fst).Pairwise (· < ·)) (f : F)
    (i : ℕ) : (((dropNil cols).lookup f).bind (·[i]?)).join = ((cols.lookup f).bind (·[i]?)).join := by
  cases hl : cols.lookup f with
  | none =>
    have hnone : (dropNil cols).lookup f = none := by
      rw [lookup_eq_none] at hl ⊢
      exact fun hf => hl ((map_fst_dropNil_sublist cols).subset hf)
    rw [hnone]
  | some col =>
    by_cases hc : col.all Option.isNone = true
    · have hnone : (dropNil cols).lookup f = none := by
        rw [lookup_eq_none]
        intro hf
        obtain ⟨⟨g, d⟩, hmem, rfl⟩ := mem_map.mp hf
        obtain ⟨hd, hval⟩ := mem_filter.mp hmem
        rw [lookup_of_mem h hd] at hl
        cases hl
        simp [hc] at hval
      rw [hnone, Option.bind_none, Option.join_none, Option.bind_some]
      cases hi : col[i]? with
      | none => rfl
      | some v =>
        have hv := all_eq_true.mp hc v (mem_of_getElem? hi)
        rw [Option.isNone_iff_eq_none] at hv
        rw [hv]
        rfl
    · have hsome : (dropNil cols).lookup f = some col := lookup_of_mem (h.sublist (map_fst_dropNil_sublist cols))
          (mem_filter.mpr ⟨mem_of_lookup hl, by simpa using hc⟩)
      rw [hsome]

theorem rows_dropNil (h : r.WF) : (⟨dropNil r.cols, r.times⟩ : Record F V).rows = r.rows := by
  have hrow : (⟨dropNil r.cols, r.times⟩ : Record F V).row = r.row := by
    funext i f
    rw [row_eq_lookup, row_eq_lookup]
    exact lookup_dropNil h.ordered f i
  rw [rows, rows, hrow]

theorem WF.dropNil (h : r.WF) : (⟨dropNil r.cols, r.times⟩ : Record F V).WF where
  aligned c hc := h.aligned c (mem_filter.mp hc).1
  ordered := h.ordered.sublist (map_fst_dropNil_sublist r.cols)

theorem Stored.dropNil (h : r.Stored) : (⟨dropNil r.cols, r.times⟩ : Record F V).Stored :=
  ⟨h.wf.dropNil, h.ascending, h.nonempty, by rw [rows_dropNil h.wf]; exact h.valued⟩

theorem Stored.slice {rec : Record F V} (h : rec.Stored) {a b : ℕ} (hab : a < b) (hb : b ≤ rec.times.length) :
    (rec.sliceFromRecord a b).Stored := by
  refine h.of_sublist h.wf.sliceFromRecord ?_ (ne_nil_of_length_pos ?_)
  · rw [rows_sliceFromRecord hab.le hb]
    exact extract_sublist _ _ _
  · rw [sliceFromRecord, length_extract]
    omega

/-! ### Pieces of equally many rows -/

omit [LinearOrder F] in
/-- The number of pieces of `maxRows` rows. -/
def segs (rec : Record F V) (maxRows : ℕ) : ℕ := (rec.rowNums + maxRows - 1) / maxRows

omit [LinearOrder F] in
/-- Pieces of `maxRows` rows (`Split`). -/
def split (rec : Record F V) (maxRows : ℕ) : List (Record F V) :=
  if rec.segs maxRows = 1 then [rec]
  else (range (rec.segs maxRows)).map fun i =>
    rec.sliceFromRecord (i * maxRows) (min ((i + 1) * maxRows) rec.rowNums)

theorem rows_piece (rec : Record F V) {maxRows : ℕ} (hi : i * maxRows ≤ rec.rowNums) :
    (rec.sliceFromRecord (i * maxRows) (min ((i + 1) * maxRows) rec.rowNums)).rows =
      rec.rows.extract (i * maxRows) ((i + 1) * maxRows) := by
  rw [rows_sliceFromRecord (le_min (Nat.mul_le_mul_right _ (Nat.le_succ i)) hi) (min_le_right _ _),
    rowNums_eq, ← length_rows, extract_min_length]

variable {rec : Record F V} {maxRows : ℕ}

omit [LinearOrder F] in
theorem lt_of_piece (hm : 0 < maxRows) (hi : i < rec.segs maxRows) : i * maxRows < rec.rowNums := by
  have h := (Nat.le_div_iff_mul_le hm).mp (Nat.succ_le_of_lt hi)
  rw [Nat.succ_mul] at h
  omega

theorem flatMap_rows_split (hm : 0 < maxRows) : (rec.split maxRows).flatMap rows = rec.rows := by
  unfold split
  split_ifs with hone
  · simp
  · have hpieces : ((range (rec.segs maxRows)).flatMap fun i =>
        (rec.sliceFromRecord (i * maxRows) (min ((i + 1) * maxRows) rec.rowNums)).rows) =
        (range (rec.segs maxRows)).flatMap fun i =>
          rec.rows.extract (i * maxRows) ((i + 1) * maxRows) := by
      refine flatMap_congr fun i hi => rec.rows_piece ?_
      exact (lt_of_piece hm (mem_range.mp hi)).le
    rw [flatMap_map, hpieces, flatMap_range_extract, ← extract_min_length, min_eq_right, extract_length, drop_zero]
    rw [length_rows, ← rowNums_eq]
    have := Nat.lt_div_mul_add hm (a := rec.rowNums + maxRows - 1)
    unfold segs
    omega

theorem Stored.of_mem_split (h : rec.Stored) (hm : 0 < maxRows) (hp : part ∈ rec.split maxRows) : part.Stored := by
  unfold split at hp
  split_ifs at hp with hone
  · rw [mem_singleton.mp hp]
    exact h
  · obtain ⟨i, hi, rfl⟩ := mem_map.mp hp
    have hlt := lt_of_piece hm (mem_range.mp hi)
    refine h.slice (lt_min ?_ hlt) (min_le_right _ _)
    rw [Nat.succ_mul]
    omega

end Record

end GeminiTS
