import GeminiTS.Record.Basic

/-!
# Columns — the field-by-field part of merging two records

The merges of `lib/record/record.go` walk the schemas of two records side by side, both in
ascending order of the field names, and append to the columns of the result.


For each of them the rows of the result are given (`rows_appendRec`, `rows_mergeRecRow`,
`rows_nonOverlap`).
-/

namespace GeminiTS

open Lib List ColVal

variable {F V : Type*} [LinearOrder F]

namespace Record

/-- The union of two schemas (`mergeRecordSchema`). -/
def mergeRecordSchema : List F → List F → List F
  | [], old => old
  | new, [] => new
  | n :: new, o :: old =>
    if n < o then n :: mergeRecordSchema new (o :: old)
    else if o < n then o :: mergeRecordSchema (n :: new) old
    else n :: mergeRecordSchema new old
termination_by new old => new.length + old.length

theorem mem_mergeRecordSchema {new old : List F} {f : F} : f ∈ mergeRecordSchema new old ↔ f ∈ new ∨ f ∈ old := by
  fun_induction mergeRecordSchema new old with
  | case1 old | case2 new _ => simp
  | case3 n new o old _ ih => simp [ih, or_assoc]
  | case4 n new o old _ _ ih => simp [ih]; tauto
  | case5 n new o old h1 h2 ih =>
    obtain rfl : n = o := le_antisymm (not_lt.mp h2) (not_lt.mp h1)
    simp; tauto

theorem mergeRecordSchema_ordered {new old : List F} (hn : new.Pairwise (· < ·))
    (ho : old.Pairwise (· < ·)) : (mergeRecordSchema new old).Pairwise (· < ·) := by
  fun_induction mergeRecordSchema new old with
  | case1 old => exact ho
  | case2 new _ => exact hn
  | case3 n new o old h ih =>
    rw [pairwise_cons] at hn
    refine pairwise_cons.mpr ⟨fun f hf => ?_, ih hn.2 ho⟩
    rcases mem_mergeRecordSchema.mp hf with hf | hf
    · exact hn.1 f hf
    · rcases mem_cons.mp hf with rfl | hf
      · exact h
      · exact h.trans ((pairwise_cons.mp ho).1 f hf)
  | case4 n new o old _ h ih =>
    rw [pairwise_cons] at ho
    refine pairwise_cons.mpr ⟨fun f hf => ?_, ih hn ho.2⟩
    rcases mem_mergeRecordSchema.mp hf with hf | hf
    · rcases mem_cons.mp hf with rfl | hf
      · exact h
      · exact h.trans ((pairwise_cons.mp hn).1 f hf)
    · exact ho.1 f hf
  | case5 n new o old h1 h2 ih =>
    obtain rfl : n = o := le_antisymm (not_lt.mp h2) (not_lt.mp h1)
    rw [pairwise_cons] at hn ho
    refine pairwise_cons.mpr ⟨fun f hf => ?_, ih hn.2 ho.2⟩
    rcases mem_mergeRecordSchema.mp hf with hf | hf
    · exact hn.1 f hf
    · exact ho.1 f hf

/-- The columns of `appendRecImpl`: `rec` is walked, `src` advances where the names agree. -/
def appendRecImpl (start stop : ℕ) : List (F × ColVal V) → List (F × ColVal V) → List (F × ColVal V)
  | [], _ => []
  | (n, c) :: rec, [] => (n, c.padColVal (stop - start)) :: appendRecImpl start stop rec []
  | (n, c) :: rec, (m, d) :: src =>
    -- a name of `src` below the name of `rec` does not occur
    if n < m then (n, c.padColVal (stop - start)) :: appendRecImpl start stop rec ((m, d) :: src)
    else (n, c.appendColVal d start stop) :: appendRecImpl start stop rec src

/-- Append the rows `[start, stop)` of `src` (`AppendRec`). -/
def appendRec (rec src : Record F V) (start stop : ℕ) : Record F V :=
  if start = stop then rec
  else ⟨appendRecImpl start stop rec.cols src.cols, rec.times ++ src.times.extract start stop⟩

/-- The columns of `mergeRecRow`: row `i` of `new` over row `j` of `old`. -/
def mergeRecRowCols (i j : ℕ) : List (F × ColVal V) → List (F × ColVal V) → List (F × ColVal V) → List (F × ColVal V)
  | (n, c) :: new, (m, d) :: old, (k, e) :: rec =>
    if n < m then (k, e.appendColVal c i (i + 1)) :: mergeRecRowCols i j new ((m, d) :: old) rec
    else if m < n then (k, e.appendColVal d j (j + 1)) :: mergeRecRowCols i j ((n, c) :: new) old rec
    else
      (k, if !c.isNil i then e.appendColVal c i (i + 1)
          else if !d.isNil j then e.appendColVal d j (j + 1)
          else e.padColVal 1) :: mergeRecRowCols i j new old rec
  | [], (_, d) :: old, (k, e) :: rec =>
    (k, e.appendColVal d j (j + 1)) :: mergeRecRowCols i j [] old rec
  | (_, c) :: new, [], (k, e) :: rec =>
    (k, e.appendColVal c i (i + 1)) :: mergeRecRowCols i j new [] rec
  | _, _, rec => rec

/-- Append row `i` of `new` laid over row `j` of `old`, at the time of the former. -/
def mergeRecRow (rec new old : Record F V) (i j : ℕ) : Record F V :=
  ⟨mergeRecRowCols i j new.cols old.cols rec.cols, rec.times ++ new.times.extract i (i + 1)⟩

/-- The columns of `mergeRecordNonOverlap`: rows `[oldPos, oldEnd)` of `old`, then rows
`[newPos, newEnd)` of `new`. -/
def nonOverlapCols (newPos newEnd oldPos oldEnd : ℕ) : List (F × ColVal V) → List (F × ColVal V) → List (F × ColVal V)
  | [], old => old.map fun p =>
      (p.1, (ColVal.appendColVal [] p.2 oldPos oldEnd).padColVal (newEnd - newPos))
  | new, [] => new.map fun p =>
      (p.1, (ColVal.padColVal [] (oldEnd - oldPos)).appendColVal p.2 newPos newEnd)
  | (n, c) :: new, (m, d) :: old =>
    if m < n then
      (m, (ColVal.appendColVal [] d oldPos oldEnd).padColVal (newEnd - newPos)) ::
        nonOverlapCols newPos newEnd oldPos oldEnd ((n, c) :: new) old
    else if n < m then
      (n, (ColVal.padColVal [] (oldEnd - oldPos)).appendColVal c newPos newEnd) ::
        nonOverlapCols newPos newEnd oldPos oldEnd new ((m, d) :: old)
    else
      (m, (ColVal.appendColVal [] d oldPos oldEnd).appendColVal c newPos newEnd) ::
        nonOverlapCols newPos newEnd oldPos oldEnd new old
termination_by new old => new.length + old.length

/-! ### Looking up one field -/

theorem lookup_cons_ne {f n : F} (h : f ≠ n) (c : ColVal V) (l : List (F × ColVal V)) :
    ((n, c) :: l).lookup f = l.lookup f := by
  simp [lookup_cons, beq_false_of_ne h]

theorem lookup_eq_none_of_lt {l : List (F × ColVal V)} {f m : F} {d : ColVal V}
    (h : (((m, d) :: l).map Prod.fst).Pairwise (· < ·)) (hf : f < m) :
    ((m, d) :: l).lookup f = none := by
  refine lookup_eq_none.mpr fun hmem => ?_
  simp only [map_cons, pairwise_cons] at h
  rcases mem_cons.mp hmem with e | hmem
  · exact absurd e hf.ne
  · exact absurd (h.1 f hmem) (not_lt.mpr hf.le)

theorem lookup_appendRecImpl {start stop : ℕ} {rec src : List (F × ColVal V)}
    (hr : (rec.map Prod.fst).Pairwise (· < ·)) (hs : (src.map Prod.fst).Pairwise (· < ·))
    (hsub : ∀ f ∈ src.map Prod.fst, f ∈ rec.map Prod.fst) (f : F) :
    (appendRecImpl start stop rec src).lookup f = (rec.lookup f).map fun c =>
      match src.lookup f with
      | some d => c.appendColVal d start stop
      | none => c.padColVal (stop - start) := by
  fun_induction appendRecImpl start stop rec src with
  | case1 src => simp
  | case2 n c rec ih =>
    by_cases hf : f = n
    · subst hf
      simp
    · rw [lookup_cons_ne hf, lookup_cons_ne hf]
      exact ih hr.of_cons hs (by simp)
  | case3 n c rec m d src hlt ih =>
    by_cases hf : f = n
    · subst hf
      rw [lookup_cons_self, lookup_cons_self, lookup_eq_none_of_lt hs hlt]
      rfl
    · rw [lookup_cons_ne hf, lookup_cons_ne hf]
      refine ih hr.of_cons hs fun g hg => ?_
      have hg' := hsub g hg
      rcases mem_cons.mp hg' with rfl | hg'
      · -- the name just passed is below every name of `src`
        rcases mem_cons.mp hg with e | hg
        · exact absurd e hlt.ne
        · have := (pairwise_cons.mp hs).1 _ hg
          exact absurd (this.trans hlt) (lt_irrefl _)
      · exact hg'
  | case4 n c rec m d src hlt ih =>
    have hm : m = n := by
      rcases mem_cons.mp (hsub m (by simp)) with e | hm
      · exact e
      · exact absurd ((pairwise_cons.mp hr).1 m hm) hlt
    subst hm
    by_cases hf : f = m
    · subst hf
      simp
    · rw [lookup_cons_ne hf, lookup_cons_ne hf, lookup_cons_ne hf]
      refine ih hr.of_cons hs.of_cons fun g hg => ?_
      rcases mem_cons.mp (hsub g (mem_cons_of_mem _ hg)) with rfl | hg'
      · exact absurd ((pairwise_cons.mp hs).1 _ hg) (lt_irrefl _)
      · exact hg'

theorem schema_appendRecImpl (start stop : ℕ) (rec src : List (F × ColVal V)) :
    (appendRecImpl start stop rec src).map Prod.fst = rec.map Prod.fst := by
  fun_induction appendRecImpl start stop rec src <;> simp [*]

section Columns

variable {rec src : Record F V}

@[simp] theorem schema_appendRec (rec src : Record F V) (start stop : ℕ) :
    (rec.appendRec src start stop).schema = rec.schema := by
  unfold appendRec
  split_ifs
  · rfl
  · exact schema_appendRecImpl _ _ _ _

theorem times_appendRec (rec src : Record F V) (start stop : ℕ) :
    (rec.appendRec src start stop).times = rec.times ++ src.times.extract start stop := by
  unfold appendRec
  split_ifs with h
  · simp [h]
  · rfl

variable {start stop : ℕ}

theorem extract_replicate_none {n : ℕ} (h : start ≤ stop) (hn : stop ≤ n) :
    (replicate n (none : Option V)).extract start stop = replicate (stop - start) none := by
  rw [extract_eq_take_drop, drop_replicate, take_replicate]
  congr 1
  omega

section

variable (hr : rec.WF) (hs : src.WF) (hsub : ∀ f ∈ src.schema, f ∈ rec.schema) (hle : start ≤ stop)
  (hlen : stop ≤ src.times.length)

include hr hs hsub hle hlen

theorem column_appendRec (f : F) :
    (rec.appendRec src start stop).column f = rec.column f ++ (src.column f).extract start stop := by
  unfold appendRec
  split_ifs with h
  · simp [h]
  · unfold column
    rw [lookup_appendRecImpl hr.ordered hs.ordered hsub]
    cases hl : rec.cols.lookup f with
    | none =>
      have hsrc : src.cols.lookup f = none := by
        refine lookup_eq_none.mpr fun hf => ?_
        exact lookup_eq_none.mp hl (hsub f hf)
      simp [hsrc]
    | some c =>
      cases hsrc : src.cols.lookup f with
      | none => simp [padColVal, extract_replicate_none hle hlen]
      | some d => simp [appendColVal]

theorem WF.appendRec : (rec.appendRec src start stop).WF := by
  refine hr.append (schema_appendRec _ _ _ _) (times_appendRec _ _ _ _)
    (column_appendRec hr hs hsub hle hlen) fun f => ?_
  simp [hs.length_column]

/-- **The rows of `AppendRec`.** -/
theorem rows_appendRec : (rec.appendRec src start stop).rows = rec.rows ++ src.rows.extract start stop := by
  rw [extract_rows]
  exact rows_append hr (times_appendRec _ _ _ _) (column_appendRec hr hs hsub hle hlen)

end

end Columns

/-! ### One row of each record -/

theorem extract_succ {col : ColVal V} {i : ℕ} (h : i < col.length) : col.extract i (i + 1) = [col[i]?.join] := by
  rw [extract_eq_take_drop, Nat.add_sub_cancel_left, drop_eq_getElem_cons h, getElem?_eq_getElem h]
  rfl

/-- The value a field gets in the merged row. -/
def rowValue (i j : ℕ) (new old : List (F × ColVal V)) (f : F) : Option V :=
  ((new.lookup f).bind (·[i]?)).join.or ((old.lookup f).bind (·[j]?)).join

theorem lookup_mergeRecRowCols {i j : ℕ} {new old rec : List (F × ColVal V)}
    (hn : (new.map Prod.fst).Pairwise (· < ·)) (ho : (old.map Prod.fst).Pairwise (· < ·))
    (hin : ∀ c ∈ new, i < c.2.length) (hjo : ∀ c ∈ old, j < c.2.length)
    (hrec : rec.map Prod.fst = mergeRecordSchema (new.map Prod.fst) (old.map Prod.fst)) (f : F) :
    (mergeRecRowCols i j new old rec).lookup f = (rec.lookup f).map fun e => e ++ [rowValue i j new old f] := by
  fun_induction mergeRecRowCols i j new old rec with
  | case1 n c new m d old k e rec hlt ih =>
    rw [map_cons, map_cons, map_cons, mergeRecordSchema, if_pos hlt] at hrec
    obtain ⟨hk, hrec⟩ := cons_eq_cons.mp hrec
    obtain rfl : k = n := hk
    by_cases hf : f = k
    · subst hf
      simp [rowValue, lookup_eq_none_of_lt ho hlt, appendColVal, extract_succ (hin (f, c) (by simp))]
    · rw [lookup_cons_ne hf, ih hn.of_cons ho (forall_mem_cons.mp hin).2 hjo (by simpa using hrec)]
      simp [rowValue, lookup_cons_ne hf]
  | case2 n c new m d old k e rec hlt hgt ih =>
    rw [map_cons, map_cons, map_cons, mergeRecordSchema, if_neg hlt, if_pos hgt] at hrec
    obtain ⟨hk, hrec⟩ := cons_eq_cons.mp hrec
    obtain rfl : k = m := hk
    by_cases hf : f = k
    · subst hf
      simp [rowValue, lookup_eq_none_of_lt hn hgt, appendColVal, extract_succ (hjo (f, d) (by simp))]
    · rw [lookup_cons_ne hf, ih hn ho.of_cons hin (forall_mem_cons.mp hjo).2 (by simpa using hrec)]
      simp [rowValue, lookup_cons_ne hf]
  | case3 n col new m d old k e rec hlt hgt ih =>
    rw [map_cons, map_cons, map_cons, mergeRecordSchema, if_neg hlt, if_neg hgt] at hrec
    obtain ⟨hk, hrec'⟩ := cons_eq_cons.mp hrec
    obtain rfl : k = n := hk
    obtain rfl : k = m := le_antisymm (not_lt.mp hgt) (not_lt.mp hlt)
    by_cases hf : f = k
    · subst hf
      have hi : i < col.length := hin (f, col) (by simp)
      have hj : j < d.length := hjo (f, d) (by simp)
      cases hc : col[i]?.join <;> cases hd : d[j]?.join <;>
        simp [rowValue, isNil, appendColVal, padColVal, extract_succ hi, extract_succ hj, hc, hd]
    · rw [lookup_cons_ne hf, ih hn.of_cons ho.of_cons (forall_mem_cons.mp hin).2 (forall_mem_cons.mp hjo).2 hrec']
      simp [rowValue, lookup_cons_ne hf]
  | case4 m d old k e rec ih =>
    rw [map_nil, mergeRecordSchema] at hrec
    obtain ⟨hk, hrec⟩ := cons_eq_cons.mp hrec
    obtain rfl : k = m := hk
    by_cases hf : f = k
    · subst hf
      simp [rowValue, appendColVal, extract_succ (hjo (f, d) (by simp))]
    · rw [lookup_cons_ne hf, ih hn ho.of_cons hin (forall_mem_cons.mp hjo).2 (by simpa [mergeRecordSchema] using hrec)]
      simp [rowValue, lookup_cons_ne hf]
  | case5 n c new k e rec ih =>
    rw [map_nil, mergeRecordSchema] at hrec
    · obtain ⟨hk, hrec⟩ := cons_eq_cons.mp hrec
      obtain rfl : k = n := hk
      by_cases hf : f = k
      · subst hf
        simp [rowValue, appendColVal, extract_succ (hin (f, c) (by simp))]
      · rw [lookup_cons_ne hf, ih hn.of_cons ho (forall_mem_cons.mp hin).2 hjo ?_]
        · simp [rowValue, lookup_cons_ne hf]
        · cases new <;> simpa [mergeRecordSchema] using hrec
    · simp
  | case6 new old rec h1 h2 h3 =>
    cases rec with
    | nil => simp
    | cons p rec =>
      rcases new with _ | ⟨⟨n, c⟩, new⟩ <;> rcases old with _ | ⟨⟨m, d⟩, old⟩
      · simp [mergeRecordSchema] at hrec
      · exact absurd rfl (h2 _ _ _ _ _ _ rfl rfl)
      · exact absurd rfl (h3 _ _ _ _ _ _ rfl rfl)
      · exact absurd rfl (h1 _ _ _ _ _ _ _ _ _ rfl rfl)

theorem schema_mergeRecRowCols (i j : ℕ) (new old rec : List (F × ColVal V)) :
    (mergeRecRowCols i j new old rec).map Prod.fst = rec.map Prod.fst := by
  fun_induction mergeRecRowCols i j new old rec <;> simp [*]

theorem row_eq_lookup (r : Record F V) (i : ℕ) (f : F) : r.row i f = ((r.cols.lookup f).bind (·[i]?)).join := by
  unfold row column
  cases hl : r.cols.lookup f with
  | some c => simp
  | none =>
    rw [Option.getD_none, getElem?_replicate]
    split_ifs <;> simp

section MergeRow

variable {rec new old : Record F V} {i j : ℕ}

@[simp] theorem schema_mergeRecRow (rec new old : Record F V) (i j : ℕ) :
    (rec.mergeRecRow new old i j).schema = rec.schema := schema_mergeRecRowCols _ _ _ _ _

theorem times_mergeRecRow (hi : i < new.times.length) :
    (rec.mergeRecRow new old i j).times = rec.times ++ [new.times[i]] := by
  rw [mergeRecRow, extract_eq_take_drop, Nat.add_sub_cancel_left, drop_eq_getElem_cons hi]
  rfl

theorem column_mergeRecRow (hn : new.WF) (ho : old.WF)
    (hs : rec.schema = mergeRecordSchema new.schema old.schema) (hi : i < new.times.length)
    (hj : j < old.times.length) (f : F) :
    (rec.mergeRecRow new old i j).column f = rec.column f ++ [((new.row i).overlay (old.row j)) f] := by
  have hv : rowValue i j new.cols old.cols f = ((new.row i).overlay (old.row j)) f := by
    rw [Row.overlay_apply, row_eq_lookup, row_eq_lookup, rowValue]
  have hin : ∀ c ∈ new.cols, i < c.2.length := fun c hc => (hn.aligned c hc).symm ▸ hi
  have hjo : ∀ c ∈ old.cols, j < c.2.length := fun c hc => (ho.aligned c hc).symm ▸ hj
  have hl : (mergeRecRowCols i j new.cols old.cols rec.cols).lookup f = _ :=
    lookup_mergeRecRowCols hn.ordered ho.ordered hin hjo hs f
  have ht : (rec.mergeRecRow new old i j).times = _ := times_mergeRecRow hi
  unfold column
  rw [rowNums_eq, ht]
  show ((mergeRecRowCols i j new.cols old.cols rec.cols).lookup f).getD _ = _
  rw [hl, hv]
  cases hrec : rec.cols.lookup f with
  | some e => simp
  | none =>
    -- the schema of the result has all fields of both records
    have hnone : f ∉ mergeRecordSchema new.schema old.schema := hs ▸ lookup_eq_none.mp hrec
    rw [mem_mergeRecordSchema, not_or] at hnone
    have hnew : new.cols.lookup f = none := lookup_eq_none.mpr hnone.1
    have hold : old.cols.lookup f = none := lookup_eq_none.mpr hnone.2
    simp [Row.overlay_apply, row_eq_lookup, hnew, hold, replicate_succ']

section

variable (hr : rec.WF) (hn : new.WF) (ho : old.WF) (hs : rec.schema = mergeRecordSchema new.schema old.schema)
  (hi : i < new.times.length) (hj : j < old.times.length)

include hr hn ho hs hi hj

theorem WF.mergeRecRow : (rec.mergeRecRow new old i j).WF :=
  hr.append (schema_mergeRecRow _ _ _ _ _) (times_mergeRecRow hi) (column_mergeRecRow hn ho hs hi hj) fun _ => rfl

/-- **The rows of `mergeRecRow`.** -/
theorem rows_mergeRecRow :
    (rec.mergeRecRow new old i j).rows = rec.rows ++ [(new.times[i], (new.row i).overlay (old.row j))] := by
  rw [rows_append hr (times_mergeRecRow hi) (column_mergeRecRow hn ho hs hi hj)]
  simp

end

end MergeRow

/-! ### Slices of a record -/

section Slice

variable {r : Record F V} {start stop : ℕ}

theorem column_sliceFromRecord (h : start ≤ stop) (hs : stop ≤ r.times.length) (f : F) :
    (r.sliceFromRecord start stop).column f = (r.column f).extract start stop := by
  have hl : (r.sliceFromRecord start stop).cols.lookup f = (r.cols.lookup f).map fun c => c.extract start stop :=
    lookup_map_snd (fun c : ColVal V => c.extract start stop) r.cols f
  unfold column
  rw [hl]
  cases r.cols.lookup f with
  | some c => rfl
  | none =>
    rw [Option.map_none, Option.getD_none, Option.getD_none, rowNums_eq, rowNums_eq,
      extract_replicate_none h hs, sliceFromRecord, length_extract]
    congr 1
    omega

theorem rows_sliceFromRecord (h : start ≤ stop) (hs : stop ≤ r.times.length) :
    (r.sliceFromRecord start stop).rows = r.rows.extract start stop := by
  have hrow : (r.sliceFromRecord start stop).row = fun i f => ((r.column f).extract start stop)[i]?.join := by
    funext i f
    rw [row, column_sliceFromRecord h hs]
  rw [extract_rows, rows, hrow]
  rfl

theorem WF.sliceFromRecord (hr : r.WF) : (r.sliceFromRecord start stop).WF where
  aligned := by
    intro c hc
    obtain ⟨p, hp, rfl⟩ := mem_map.mp hc
    simp only [Record.sliceFromRecord, length_extract, hr.aligned p hp]
  ordered := by rw [schema_sliceFromRecord]; exact hr.ordered

end Slice

/-! ### Two ranges that do not overlap -/

theorem schema_nonOverlapCols (newPos newEnd oldPos oldEnd : ℕ) (new old : List (F × ColVal V)) :
    (nonOverlapCols newPos newEnd oldPos oldEnd new old).map Prod.fst =
      mergeRecordSchema (new.map Prod.fst) (old.map Prod.fst) := by
  fun_induction nonOverlapCols newPos newEnd oldPos oldEnd new old with
  | case1 old => simp [mergeRecordSchema]
  | case2 new h =>
    rcases new with _ | ⟨c, new⟩
    · exact absurd rfl h
    · simp [mergeRecordSchema]
  | case3 n c new m d old hlt ih =>
    rw [map_cons, ih, map_cons, map_cons, mergeRecordSchema, if_neg hlt.asymm, if_pos hlt]
  | case4 n c new m d old hlt hgt ih =>
    rw [map_cons, ih, map_cons, map_cons, mergeRecordSchema, if_pos hgt]
  | case5 n c new m d old hlt hgt ih =>
    have hnm : m = n := le_antisymm (not_lt.mp hgt) (not_lt.mp hlt)
    rw [map_cons, ih, map_cons, map_cons, mergeRecordSchema, if_neg hgt, if_neg hlt, hnm]

theorem lookup_nonOverlapCols {newPos newEnd oldPos oldEnd : ℕ} {new old : List (F × ColVal V)}
    (hn : (new.map Prod.fst).Pairwise (· < ·)) (ho : (old.map Prod.fst).Pairwise (· < ·)) (f : F) :
    (nonOverlapCols newPos newEnd oldPos oldEnd new old).lookup f =
      match old.lookup f, new.lookup f with
      | some d, some c => some (d.extract oldPos oldEnd ++ c.extract newPos newEnd)
      | some d, none => some (d.extract oldPos oldEnd ++ replicate (newEnd - newPos) none)
      | none, some c => some (replicate (oldEnd - oldPos) none ++ c.extract newPos newEnd)
      | none, none => none := by
  fun_induction nonOverlapCols newPos newEnd oldPos oldEnd new old with
  | case1 old =>
    have hg := lookup_map_snd (fun d => (appendColVal [] d oldPos oldEnd).padColVal (newEnd - newPos)) old f
    rw [hg]
    cases old.lookup f <;> rfl
  | case2 new _ =>
    have hg := lookup_map_snd (fun c => (padColVal [] (oldEnd - oldPos)).appendColVal c newPos newEnd) new f
    rw [hg]
    cases new.lookup f <;> rfl
  | case3 n c new m d old hlt ih =>
    by_cases hf : f = m
    · subst hf
      simp [lookup_eq_none_of_lt hn hlt, appendColVal, padColVal]
    · rw [lookup_cons_ne hf, lookup_cons_ne hf]
      exact ih hn ho.of_cons
  | case4 n c new m d old hlt hgt ih =>
    by_cases hf : f = n
    · subst hf
      simp [lookup_eq_none_of_lt ho hgt, appendColVal, padColVal]
    · rw [lookup_cons_ne hf, lookup_cons_ne hf]
      exact ih hn.of_cons ho
  | case5 n c new m d old hlt hgt ih =>
    obtain rfl : m = n := le_antisymm (not_lt.mp hgt) (not_lt.mp hlt)
    by_cases hf : f = m
    · subst hf
      simp [appendColVal]
    · rw [lookup_cons_ne hf, lookup_cons_ne hf, lookup_cons_ne hf]
      exact ih hn.of_cons ho.of_cons

/-- Rows `[oldPos, oldEnd)` of `old` followed by rows `[newPos, newEnd)` of `new`, as
`mergeRecordNonOverlap` fills them into an empty record. -/
def nonOverlap (new old : Record F V) (newPos newEnd oldPos oldEnd : ℕ) : Record F V :=
  ⟨nonOverlapCols newPos newEnd oldPos oldEnd new.cols old.cols,
    old.times.extract oldPos oldEnd ++ new.times.extract newPos newEnd⟩

section NonOverlap

variable {new old : Record F V} {newPos newEnd oldPos oldEnd : ℕ}

theorem schema_nonOverlap : (nonOverlap new old newPos newEnd oldPos oldEnd).schema =
      mergeRecordSchema new.schema old.schema := schema_nonOverlapCols _ _ _ _ _ _

section

variable (hn : new.WF) (ho : old.WF) (hnp : newPos ≤ newEnd) (hne : newEnd ≤ new.times.length) (hop : oldPos ≤ oldEnd)
  (hoe : oldEnd ≤ old.times.length)

include hn ho hnp hne hop hoe

theorem column_nonOverlap (f : F) : (nonOverlap new old newPos newEnd oldPos oldEnd).column f =
      (old.column f).extract oldPos oldEnd ++ (new.column f).extract newPos newEnd := by
  unfold column
  rw [nonOverlap, lookup_nonOverlapCols hn.ordered ho.ordered]
  cases hlo : old.cols.lookup f <;> cases hln : new.cols.lookup f
  · simp only [Option.getD_none, rowNums_eq]
    rw [extract_replicate_none hop hoe, extract_replicate_none hnp hne, replicate_append_replicate]
    congr 1
    simp only [length_append, length_take, length_drop]
    omega
  · simp [extract_replicate_none hop hoe]
  · simp [extract_replicate_none hnp hne]
  · simp

theorem WF.nonOverlap : (nonOverlap new old newPos newEnd oldPos oldEnd).WF := by
  refine .of_length_column ?_ fun f => ?_
  · rw [schema_nonOverlap]
    exact mergeRecordSchema_ordered hn.ordered ho.ordered
  · rw [column_nonOverlap hn ho hnp hne hop hoe]
    simp [Record.nonOverlap, hn.length_column, ho.length_column]

/-- **The rows of `mergeRecordNonOverlap`.** -/
theorem rows_nonOverlap : (nonOverlap new old newPos newEnd oldPos oldEnd).rows =
      old.rows.extract oldPos oldEnd ++ new.rows.extract newPos newEnd := by
  rw [← rows_sliceFromRecord hop hoe, extract_rows]
  refine rows_append ho.sliceFromRecord rfl fun f => ?_
  rw [column_nonOverlap hn ho hnp hne hop hoe, column_sliceFromRecord hop hoe]

end

end NonOverlap

end Record

end GeminiTS
