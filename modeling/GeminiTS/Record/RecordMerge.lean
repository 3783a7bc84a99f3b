import GeminiTS.Lib.StableSort
import GeminiTS.Record.Columns

/-!
# RecordMerge — appending a record with another schema

`Record.Merge` (`lib/record/record.go`) appends all rows of a record to another one; columns either
side lacks are padded with nulls.
-/

namespace GeminiTS

open Lib List

variable {F V : Type*} [LinearOrder F]

namespace Record

/-- The names of `other` that are not in `rec`. -/
def missing : List F → List F → List F
  | _, [] => []
  | [], b :: other => b :: other
  | a :: rec, b :: other =>
    if a < b then missing rec (b :: other)
    else if b < a then b :: missing (a :: rec) other
    else missing rec other
termination_by rec other => rec.length + other.length

/-- A column of nulls (`addColumn`). -/
def addColumn (rowNum : ℕ) (name : F) : F × ColVal V := (name, List.replicate rowNum none)

/-- The columns of `rec`, then those of `other` that `rec` lacks. -/
def paddedCols (rec other : Record F V) : List (F × ColVal V) :=
  rec.cols ++ (missing rec.schema other.schema).map (addColumn rec.rowNums)

/-- Add the columns of `other` that `rec` lacks, as nulls (`PadRecord`). -/
def padRecord (rec other : Record F V) : Record F V :=
  if (missing rec.schema other.schema).isEmpty then rec
  else ⟨stableSort Prod.fst (rec.paddedCols other), rec.times⟩

/-- The columns of `Merge`; at a name of `src` below the name of `rec` neither index would move. -/
def mergeCols (newRecRows : ℕ) : List (F × ColVal V) → List (F × ColVal V) → Option (List (F × ColVal V))
  | [], _ => some []
  | (n, c) :: rec, [] => (mergeCols newRecRows rec []).map ((n, c.padColVal newRecRows) :: ·)
  | (n, c) :: rec, (m, d) :: src =>
    if n = m then (mergeCols newRecRows rec src).map ((n, c.appendColVal d 0 newRecRows) :: ·)
    else if n < m then
      (mergeCols newRecRows rec ((m, d) :: src)).map ((n, c.padColVal newRecRows) :: ·)
    else none

/-- Append all rows of `newRec` (`Merge`). -/
def merge (rec newRec : Record F V) : Option (Record F V) :=
  let padded := rec.padRecord newRec
  (mergeCols newRec.rowNums padded.cols newRec.cols).map fun cols =>
    ⟨cols, padded.times ++ newRec.times⟩

/-- `CheckRecord`: `none` is a panic; columns out of order are sorted. -/
def checkRecord (rec : Record F V) : Option (Record F V) :=
  if rec.cols.isEmpty || !decide (rec.schema.IsChain (· ≠ ·)) ||
      rec.cols.any fun c => c.2.length ≠ rec.times.length then none
  else if rec.schema.IsChain (· < ·) then some rec
  else some ⟨stableSort Prod.fst rec.cols, rec.times⟩

theorem WF.checkRecord {rec : Record F V} (h : rec.WF) (hne : rec.cols ≠ []) : rec.checkRecord = some rec := by
  have hchain : rec.schema.IsChain (· < ·) := h.ordered.isChain
  have hne' : rec.schema.IsChain (· ≠ ·) := hchain.imp fun _ _ hab => hab.ne
  have hlen : (rec.cols.any fun c => c.2.length ≠ rec.times.length) = false := by
    rw [any_eq_false]
    intro c hc
    simpa using h.aligned c hc
  rw [Record.checkRecord, hlen, if_pos hchain]
  simp [hne, hne']

theorem mem_missing {rec other : List F} (hr : rec.Pairwise (· < ·)) (ho : other.Pairwise (· < ·))
    {f : F} : f ∈ missing rec other ↔ f ∈ other ∧ f ∉ rec := by
  fun_induction missing rec other with
  | case1 | case2 => simp
  | case3 a rec b other hab ih =>
    -- `a` is below every name that is left
    rw [ih hr.of_cons ho]
    refine and_congr_right fun hf => not_congr ⟨mem_cons_of_mem _, fun h => ?_⟩
    rcases mem_cons.mp h with rfl | h
    · rcases mem_cons.mp hf with rfl | hf
      · exact absurd hab (lt_irrefl _)
      · exact absurd ((pairwise_cons.mp ho).1 f hf) hab.asymm
    · exact h
  | case4 a rec b other _ hba ih =>
    rw [mem_cons, ih hr ho.of_cons]
    constructor
    · rintro (rfl | ⟨hf, hn⟩)
      · refine ⟨mem_cons_self, fun h => ?_⟩
        rcases mem_cons.mp h with rfl | h
        · exact lt_irrefl _ hba
        · exact ((pairwise_cons.mp hr).1 f h).asymm hba
      · exact ⟨mem_cons_of_mem _ hf, hn⟩
    · rintro ⟨hf, hn⟩
      rcases mem_cons.mp hf with rfl | hf
      · exact .inl rfl
      · exact .inr ⟨hf, hn⟩
  | case5 a rec b other hab hba ih =>
    obtain rfl : a = b := le_antisymm (not_lt.mp hba) (not_lt.mp hab)
    rw [pairwise_cons] at hr ho
    rw [ih hr.2 ho.2, mem_cons, mem_cons, not_or]
    constructor
    · rintro ⟨hf, hn⟩
      exact ⟨.inr hf, (ho.1 f hf).ne', hn⟩
    · rintro ⟨hf, hne, hn⟩
      exact ⟨hf.resolve_left hne, hn⟩

theorem missing_sublist (rec other : List F) : (missing rec other).Sublist other := by
  fun_induction missing rec other with
  | case1 | case2 => exact .refl _
  | case3 _ _ _ _ _ ih => exact ih
  | case4 _ _ b _ _ _ ih => exact ih.cons_cons b
  | case5 _ _ b _ _ _ ih => exact ih.cons b

variable (rec other : Record F V)

@[simp] theorem times_padRecord : (rec.padRecord other).times = rec.times := by
  unfold padRecord
  split_ifs <;> rfl

theorem cols_padRecord_perm : (rec.padRecord other).cols.Perm (rec.paddedCols other) := by
  unfold padRecord
  split_ifs with h
  · rw [paddedCols, isEmpty_iff.mp h, map_nil, append_nil]
  · exact stableSort_perm _ _

theorem map_fst_paddedCols : (rec.paddedCols other).map Prod.fst = rec.schema ++ missing rec.schema other.schema := by
  rw [paddedCols, map_append, map_map]
  exact congrArg (rec.schema ++ ·) (map_id _)

section Pad

variable {rec other : Record F V} (hr : rec.WF) (ho : other.WF)

include hr ho

theorem mem_schema_padRecord {f : F} : f ∈ (rec.padRecord other).schema ↔ f ∈ rec.schema ∨ f ∈ other.schema := by
  rw [schema, ((cols_padRecord_perm rec other).map Prod.fst).mem_iff, map_fst_paddedCols,
    mem_append, mem_missing hr.ordered ho.ordered]
  tauto

theorem nodup_paddedCols : ((rec.paddedCols other).map Prod.fst).Nodup := by
  rw [map_fst_paddedCols, nodup_append]
  refine ⟨hr.ordered.imp fun h => h.ne, ?_, ?_⟩
  · exact (ho.ordered.imp fun h => h.ne).sublist (missing_sublist _ _)
  · rintro a ha b hb rfl
    exact ((mem_missing hr.ordered ho.ordered).mp hb).2 ha

theorem WF.padRecord : (rec.padRecord other).WF where
  aligned := by
    intro c hc
    rw [(cols_padRecord_perm rec other).mem_iff, paddedCols, mem_append] at hc
    rw [times_padRecord]
    rcases hc with hc | hc
    · exact hr.aligned c hc
    · obtain ⟨n, -, rfl⟩ := mem_map.mp hc
      exact length_replicate
  ordered := by
    have hnodup := nodup_paddedCols hr ho
    unfold Record.padRecord
    split_ifs
    · exact hr.ordered
    · rw [schema, pairwise_map]
      have hne : (stableSort Prod.fst (rec.paddedCols other)).Pairwise fun a b => a.1 ≠ b.1 := by
        rw [← pairwise_map]
        exact ((stableSort_perm _ _).map Prod.fst).nodup_iff.mpr hnodup
      exact ((pairwise_stableSort _ _).and hne).imp fun h => lt_of_le_of_ne h.1 h.2

theorem column_padRecord (f : F) : (rec.padRecord other).column f = rec.column f := by
  have hmem : ∀ {f c}, (f, c) ∈ (rec.padRecord other).cols →
      (rec.padRecord other).cols.lookup f = some c := lookup_of_mem (hr.padRecord ho).ordered
  have hperm := cols_padRecord_perm rec other
  unfold column
  cases hl : rec.cols.lookup f with
  | some c =>
    rw [hmem (hperm.mem_iff.mpr (mem_append_left _ (mem_of_lookup hl)))]
    rfl
  | none =>
    rw [lookup_eq_none] at hl
    by_cases hf : f ∈ other.schema
    · have hadd : addColumn rec.rowNums f ∈ (rec.padRecord other).cols := hperm.mem_iff.mpr (mem_append_right _
          (mem_map_of_mem ((mem_missing hr.ordered ho.ordered).mpr ⟨hf, hl⟩)))
      rw [hmem hadd]
      rfl
    · rw [lookup_eq_none.mpr fun h => ((mem_schema_padRecord hr ho).mp h).elim hl hf, rowNums_eq, times_padRecord]
      rfl

end Pad

theorem mergeCols_eq {n : ℕ} {rec src : List (F × ColVal V)}
    (hr : (rec.map Prod.fst).Pairwise (· < ·)) (hs : (src.map Prod.fst).Pairwise (· < ·))
    (hsub : ∀ f ∈ src.map Prod.fst, f ∈ rec.map Prod.fst) :
    mergeCols n rec src = some (appendRecImpl 0 n rec src) := by
  fun_induction mergeCols n rec src with
  | case1 => rw [appendRecImpl]
  | case2 a c rec ih =>
    rw [ih hr.of_cons hs (by simp), appendRecImpl]
    rfl
  | case3 a c rec d src ih =>
    rw [map_cons, pairwise_cons] at hr hs
    rw [ih hr.2 hs.2 fun f hf => ?_, appendRecImpl, if_neg (lt_irrefl _)]
    · rfl
    · rcases mem_cons.mp (hsub f (mem_cons_of_mem _ hf)) with rfl | h
      · exact absurd (hs.1 _ hf) (lt_irrefl _)
      · exact h
  | case4 a c rec b d src hne hlt ih =>
    rw [map_cons, pairwise_cons] at hr
    rw [ih hr.2 hs fun f hf => ?_, appendRecImpl, if_pos hlt]
    · rfl
    · rcases mem_cons.mp (hsub f hf) with rfl | h
      · rcases mem_cons.mp hf with h | h
        · exact absurd h hne
        · exact absurd ((pairwise_cons.mp hs).1 _ h) hlt.asymm
      · exact h
  | case5 a c rec b d src hne hlt =>
    -- the name of `src` is one of `rec`, so it cannot be below the first of them
    rw [map_cons, pairwise_cons] at hr
    rcases mem_cons.mp (hsub b mem_cons_self) with h | h
    · exact absurd h.symm hne
    · exact absurd (hr.1 b h) hlt

/-- **`Merge` appends the rows of the other record.** -/
theorem rows_merge {rec newRec : Record F V} (hr : rec.WF) (hn : newRec.WF) (hne : newRec.times ≠ []) :
    ∃ u, rec.merge newRec = some u ∧ u.WF ∧ u.rows = rec.rows ++ newRec.rows ∧
      ∀ f, f ∈ u.schema ↔ f ∈ rec.schema ∨ f ∈ newRec.schema := by
  have hp := hr.padRecord hn
  have hsub : ∀ f ∈ newRec.schema, f ∈ (rec.padRecord newRec).schema := fun f hf =>
    (mem_schema_padRecord hr hn).mpr (.inr hf)
  have happ : (rec.padRecord newRec).appendRec newRec 0 newRec.times.length =
      ⟨appendRecImpl 0 newRec.times.length (rec.padRecord newRec).cols newRec.cols,
        (rec.padRecord newRec).times ++ newRec.times⟩ := by
    rw [appendRec, if_neg (by simpa using Ne.symm (mt length_eq_zero_iff.mp hne)), extract_length, drop_zero]
  refine ⟨(rec.padRecord newRec).appendRec newRec 0 newRec.times.length, ?_, ?_, ?_, ?_⟩
  · rw [happ, merge, mergeCols_eq hp.ordered hn.ordered hsub]
    rfl
  · exact hp.appendRec hn hsub (by omega) le_rfl
  · rw [rows_appendRec hp hn hsub (by omega) le_rfl, ← newRec.length_rows, extract_length,
      drop_zero, rows_congr (times_padRecord rec newRec) (column_padRecord hr hn)]
  · intro f
    rw [schema_appendRec, mem_schema_padRecord hr hn]

end Record

end GeminiTS
