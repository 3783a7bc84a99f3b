import GeminiTS.Immutable.MergeSeries

/-!
# WriteRemain — series that no ordered file has

`mergePerformer.writeRemain` (`engine/immutable/merge_performer.go`) writes the series of the
out-of-order files that the ordered file lacks; `UnorderedReader.readRemain` reads them, column by
column and one segment at a time.
-/

namespace GeminiTS

open Lib List UnorderedReader SeriesOut

variable {F V : Type*} [LinearOrder F]

namespace MergePerformer

/-- The inner loop of `readRemain`: the current column up to the last time of each batch; every
batch is written and flushed. -/
def remainBatches (limit : ℕ) : List (List ℤ) → MergePerformer F V → Option (MergePerformer F V)
  | [], p => some p
  | batch :: batches, p =>
    match batch.getLast? with
    | none => none
    | some max =>
      let (col, ur) := p.ur.read max
      (write limit { p with ur := ur } (col.map Prod.snd) (col.map Prod.fst) true).bind (remainBatches limit batches)

/-- The outer loop of `readRemain`: all columns, in batches of `limit` rows. -/
def remainCols (limit : ℕ) (times : List ℤ) : List F → MergePerformer F V → Option (MergePerformer F V)
  | [], p => some p
  | ref :: schema, p =>
    (remainBatches limit (splitEvery limit times)
      { p with ur := p.ur.changeColumn ref, sw := p.sw.appendColumn ref }).bind (remainCols limit times schema)

/-- The time column, passed to the column writer like any other. -/
def remainTimes (limit : ℕ) (times : List ℤ) : Option (List (List ℤ)) :=
  ((ColumnWriter.init : ColumnWriter ℤ).write limit (times.map some) times).map fun (segs, cw) =>
    (segs ++ cw.flush.1).map Prod.snd

/-- One series of `writeRemain`. -/
def writeRemain (limit sid : ℕ) (ur : UnorderedReader F V) : Option (SeriesOut F V) :=
  let schema := ur.readSeriesSchemas maxInt64
  let ur := ur.initTimes maxInt64
  if ur.times.length = 0 then some SeriesOut.empty
  else
    (remainCols limit ur.times schema (init false sid ur)).bind fun p =>
      (remainTimes limit ur.times).map fun times => { p.sw with times := times }

end MergePerformer

open MergePerformer

/-- The out-of-order files of a series and all their times. -/
structure RemainInput (F V : Type*) [LinearOrder F] where
  limit : ℕ
  limit_whole : ColumnWriter.Whole limit
  chunks : List (Chunk F V)
  chunks_wf : ∀ c ∈ chunks, c.WF

namespace RemainInput

variable (r : RemainInput F V)

/-- Before all times. -/
def lower : ℤ := minInt64 - 1

/-- All times. -/
def times : List ℤ := UnorderedReader.windowTimes r.chunks lower maxInt64

theorem pairwise_times : r.times.Pairwise (· < ·) := pairwise_windowTimes r.chunks_wf _ _

variable {limit : ℕ} {t : ℤ}

theorem lower_lt {c : Chunk F V} (hc : c ∈ r.chunks) (ht : t ∈ c.times) : lower < t :=
  Int.sub_one_lt_of_le ((r.chunks_wf c hc).int64 t ht).1

theorem mem_times : t ∈ r.times ↔ ∃ c ∈ r.chunks, t ∈ c.times := by
  rw [times, mem_windowTimes r.chunks_wf]
  refine ⟨And.left, fun h => ⟨h, ?_⟩⟩
  obtain ⟨c, hc, ht⟩ := h
  exact ⟨r.lower_lt hc ht, ((r.chunks_wf c hc).int64 t ht).2⟩

/-- The column of a field. -/
def column (f : F) : TimedCol V := graph r.times (newestValue r.chunks f)

/-- Columns `done` are written, of `f` the times of `pre`. -/
structure InColumn (done : List F) (f : F) (pre : List ℤ) (p : MergePerformer F V) : Prop where
  cw_eq : p.cw = ColumnWriter.init
  sw_eq : p.sw = ⟨done.map (fun g => (g, (splitEvery r.limit (r.column g)).map ColumnWriter.segment)) ++
    [(f, (splitEvery r.limit (graph pre (newestValue r.chunks f))).map ColumnWriter.segment)], []⟩
  times_eq : p.ur.times = r.times
  readers : ∃ pos : F → ℤ, p.ur.At r.chunks pos maxInt64 ∧ p.ur.OnColumn r.chunks f (pos f) ∧
    (∀ g, g ∉ f :: done → pos g = lower) ∧ ∀ t ∈ r.times, t ∈ pre ↔ t ≤ pos f

theorem holds_full (hl : 0 < limit) {z : TimedCol V} (hz : limit ∣ z.length) :
    ColumnWriter.Holds limit z ((splitEvery limit z).map ColumnWriter.segment) ColumnWriter.init := by
  obtain ⟨full, rest, hfull, hrest, rfl⟩ := ColumnWriter.exists_full hl z
  have hlen : full.flatten.length = full.length * limit := by
    rw [length_flatten, map_congr_left hfull, map_const', sum_replicate, nsmul_eq_mul, Nat.cast_id]
  have hnil : rest = [] := by
    rw [length_append, hlen, Nat.dvd_add_right (Dvd.intro_left _ rfl)] at hz
    exact length_eq_zero_iff.mp (Nat.eq_zero_of_dvd_of_lt hz hrest)
  subst hnil
  refine ⟨full, [], hfull, hl, rfl, ?_, rfl⟩
  rw [splitEvery_flatten_append hl hfull, splitEvery_nil, append_nil]

/-- The times up to the last one of a batch, and those of the batch alone. -/
theorem batch_spec {pre batch post : List ℤ} (h : r.times = pre ++ (batch ++ post)) {a m : ℤ}
    (hpre : ∀ t ∈ r.times, t ∈ pre ↔ t ≤ a) (hm : batch.getLast? = some m) :
    (∀ t ∈ r.times, t ∈ pre ++ batch ↔ t ≤ m) ∧ (r.times.filter fun t => a < t ∧ t ≤ m) = batch := by
  have hasc := r.pairwise_times
  rw [h, ← append_assoc, pairwise_append] at hasc
  obtain ⟨hleft, -, hpost⟩ := hasc
  have hlast : (pre ++ batch).getLast? = some m := by
    rw [getLast?_append, hm]
    rfl
  have hle (t : ℤ) (ht : t ∈ r.times) : t ∈ pre ++ batch ↔ t ≤ m := by
    refine ⟨le_getLast? hleft hlast, fun htm => ?_⟩
    rw [h, ← append_assoc] at ht
    exact (mem_append.mp ht).resolve_right fun hp => absurd (hpost m (mem_of_getLast? hlast) t hp) htm.not_gt
  refine ⟨hle, (r.pairwise_times.filter _).eq_of_mem_iff (pairwise_append.mp hleft).2.1 fun t => ?_⟩
  have hnot (ht : t ∈ batch) : t ∉ pre := fun hp => ((pairwise_append.mp hleft).2.2 t hp t ht).false
  rw [mem_filter, decide_eq_true_eq]
  constructor
  · rintro ⟨ht, hat, htm⟩
    exact (mem_append.mp ((hle t ht).mpr htm)).resolve_left fun hp => absurd ((hpre t ht).mp hp) hat.not_ge
  · intro ht
    have hmem : t ∈ r.times := h ▸ mem_append_right _ (mem_append_left _ ht)
    exact ⟨hmem, not_le.mp (mt (hpre t hmem).mpr (hnot ht)), (hle t hmem).mp (mem_append_right _ ht)⟩

theorem remainBatches_spec {done : List F} {f : F} (rest pre : List ℤ) (p : MergePerformer F V)
    (hsplit : r.times = pre ++ rest) (hdvd : rest ≠ [] → r.limit ∣ pre.length) (h : r.InColumn done f pre p) :
    ∃ p', remainBatches r.limit (splitEvery r.limit rest) p = some p' ∧ r.InColumn done f r.times p' := by
  induction hn : rest.length using Nat.strong_induction_on generalizing rest pre p with
  | h n ih =>
    by_cases hnil : rest = []
    · subst hnil
      rw [append_nil] at hsplit
      exact ⟨p, by simp [remainBatches], hsplit ▸ h⟩
    obtain ⟨batch, hbatch⟩ : ∃ batch, rest.take r.limit = batch := ⟨_, rfl⟩
    obtain ⟨post, hpost⟩ : ∃ post, rest.drop r.limit = post := ⟨_, rfl⟩
    have hrest : rest = batch ++ post := by rw [← hbatch, ← hpost, take_append_drop]
    have hne : batch ≠ [] := by
      rw [← hbatch, ne_eq, take_eq_nil_iff, not_or]
      exact ⟨r.limit_whole.1.ne', hnil⟩
    obtain ⟨m, hm⟩ : ∃ m, batch.getLast? = some m := ⟨_, getLast?_eq_some_getLast hne⟩
    obtain ⟨pos, hat, hon, hother, hpre⟩ := h.readers
    have hsplit' : r.times = pre ++ (batch ++ post) := hrest ▸ hsplit
    obtain ⟨hle, hfilter⟩ := r.batch_spec hsplit' hpre hm
    have hposm : pos f < m := by
      have : m ∈ r.times.filter fun t => pos f < t ∧ t ≤ m := hfilter.symm ▸ mem_of_getLast? hm
      simpa using (mem_filter.mp this).2
    obtain ⟨hread, hat', hon', htimes'⟩ := hat.read r.chunks_wf (h.times_eq ▸ r.pairwise_times)
      hposm.le hon fun c hc t ht _ _ => h.times_eq ▸ r.mem_times.mpr ⟨c, hc, ht⟩
    rw [h.times_eq, hfilter] at hread
    have hdvd' : r.limit ∣ (graph pre (newestValue r.chunks f)).length := by
      rw [length_graph]
      exact hdvd hnil
    obtain ⟨cw, sw, hwrite, hcw, hsw⟩ := write_spec (p := { p with ur := (p.ur.read m).2 }) r.limit_whole h.sw_eq
      (h.cw_eq.symm ▸ holds_full r.limit_whole.1 hdvd') (graph batch (newestValue r.chunks f)) true
    have hpnew : r.InColumn done f (pre ++ batch) { p with ur := (p.ur.read m).2, cw := cw, sw := sw } := by
      refine ⟨hcw, hsw.trans (by rw [graph_append]), htimes'.trans h.times_eq,
        Function.update pos f m, hat', by rwa [Function.update_self], fun g hg => ?_, by rwa [Function.update_self]⟩
      rw [Function.update_of_ne (ne_of_mem_of_not_mem mem_cons_self hg).symm, hother g hg]
    have hlen : post.length < n := by
      rw [← hn, hrest, length_append]
      have := length_pos_iff.mpr hne
      omega
    have hfull : post ≠ [] → r.limit ∣ (pre ++ batch).length := by
      intro hpne
      have hlenb : batch.length = r.limit := by
        rw [← hbatch, length_take]
        have := length_pos_iff.mpr hpne
        rw [← hpost, length_drop] at this
        omega
      rw [length_append, hlenb]
      exact Nat.dvd_add (hdvd hnil) (Nat.dvd_refl _)
    obtain ⟨p', hp', hin⟩ := ih post.length hlen post (pre ++ batch) _
      (hsplit'.trans (append_assoc _ _ _).symm) hfull hpnew rfl
    refine ⟨p', ?_, hin⟩
    rw [splitEvery_cons r.limit_whole.1 hnil, hbatch, hpost, remainBatches, hm]
    simp only [hread, hwrite]
    exact hp'

/-- Columns `done` are written. -/
structure Ready (done : List F) (p : MergePerformer F V) : Prop where
  cw_eq : p.cw = ColumnWriter.init
  sw_eq : p.sw = ⟨done.map fun g => (g, (splitEvery r.limit (r.column g)).map ColumnWriter.segment), []⟩
  times_eq : p.ur.times = r.times
  readers : ∃ pos : F → ℤ, p.ur.At r.chunks pos maxInt64 ∧ ∀ g, g ∉ done → pos g = lower

theorem lower_lt_times (ht : t ∈ r.times) : lower < t := by
  obtain ⟨c, hc, ht⟩ := r.mem_times.mp ht
  exact r.lower_lt hc ht

theorem remainCols_spec (schema done : List F) (p : MergePerformer F V)
    (hnodup : (done ++ schema).Nodup) (h : r.Ready done p) :
    ∃ p', remainCols r.limit r.times schema p = some p' ∧ r.Ready (done ++ schema) p' := by
  induction schema generalizing done p with
  | nil => exact ⟨p, rfl, by rwa [append_nil]⟩
  | cons f schema ih =>
    have hf : f ∉ done := fun hmem =>
      (nodup_append.mp hnodup).2.2 f hmem f mem_cons_self rfl
    obtain ⟨pos, hat, hpos⟩ := h.readers
    obtain ⟨hat', hon⟩ := hat.changeColumn
      (h.times_eq ▸ r.pairwise_times) fun t ht => r.lower_lt_times (h.times_eq ▸ ht)
    have hin : r.InColumn done f [] { p with ur := p.ur.changeColumn f, sw := p.sw.appendColumn f } := by
      refine ⟨h.cw_eq, ?_, h.times_eq, pos, hat', by rwa [hpos f hf], ?_, ?_⟩
      · simp only [appendColumn, h.sw_eq, graph_nil, splitEvery_nil, map_nil]
      · exact fun g hg => hpos g fun hmem => hg (mem_cons_of_mem _ hmem)
      · intro t ht
        rw [hpos f hf]
        exact iff_of_false not_mem_nil (r.lower_lt_times ht).not_ge
    obtain ⟨p1, hp1, hin1⟩ := r.remainBatches_spec r.times [] _ rfl (by simp) hin
    have hready : r.Ready (done ++ [f]) p1 := by
      obtain ⟨pos1, hat1, -, hother, -⟩ := hin1.readers
      refine ⟨hin1.cw_eq, hin1.sw_eq.trans ?_, hin1.times_eq, pos1, hat1, fun g hg => ?_⟩
      · rw [map_append]
        rfl
      · exact hother g (by simpa [or_comm] using hg)
    obtain ⟨p2, hp2, hready2⟩ := ih (done ++ [f]) p1 (by rw [append_assoc]; exact hnodup) hready
    refine ⟨p2, ?_, by rwa [append_assoc] at hready2⟩
    rw [remainCols, hp1]
    exact hp2

theorem remainTimes_spec (hl : ColumnWriter.Whole limit) (ts : List ℤ) :
    remainTimes limit ts = some (splitEvery limit ts) := by
  obtain ⟨segs, cw, hwrite, hholds⟩ := (ColumnWriter.holds_init hl.1).write hl (graph ts some)
  rw [map_snd_graph, map_fst_graph] at hwrite
  rw [remainTimes, hwrite]
  obtain ⟨hflush, -⟩ := hholds.flush hl.1
  have htimes : ((splitEvery limit (graph ts some)).map ColumnWriter.segment).map Prod.snd =
      splitEvery limit ((graph ts some).map Prod.fst) := by
    rw [map_map, ← map_splitEvery]
    rfl
  rw [map_fst_graph] at htimes
  exact congrArg some ((congrArg (map Prod.snd) hflush).trans htimes)

/-- **A series that no ordered file has** is written as its out-of-order files laid over each
other. -/
theorem writeRemain_eq_overlay (sid : ℕ) : ∃ out, writeRemain r.limit sid (init r.chunks) = some out ∧
      out.record.WF ∧ (∀ q ∈ out.cols, q.2.map Prod.snd = out.times) ∧
      Sorted (before true) out.record.rows ∧
      toTable out.record.rows = Table.newest (r.chunks.map Chunk.table) := by
  have hat0 := at_init r.chunks_wf fun c hc t ht => r.lower_lt hc ht
  obtain ⟨hat, htimes⟩ := hat0.initTimes r.chunks_wf (b := maxInt64) (by decide)
  have htimes' : ((init r.chunks).initTimes maxInt64).times = r.times := htimes
  by_cases hnil : r.times = []
  · -- without times there is no chunk
    have hchunks : r.chunks = [] := by
      by_contra hne
      obtain ⟨c, hc⟩ := exists_mem_of_ne_nil _ hne
      obtain ⟨t, ht⟩ := exists_mem_of_ne_nil _ (r.chunks_wf c hc).times_ne
      have hmem := r.mem_times.mpr ⟨c, hc, ht⟩
      rw [hnil] at hmem
      simp at hmem
    refine ⟨empty, ?_, ⟨by simp [record, empty], ?_⟩, by simp [empty], .nil, by rw [hchunks]; rfl⟩
    · rw [writeRemain, if_pos (by rw [htimes', hnil]; rfl)]
    · exact .nil
  obtain ⟨schema, hschema⟩ : ∃ schema, (init r.chunks).readSeriesSchemas maxInt64 = schema := ⟨_, rfl⟩
  have hsorted : schema.Pairwise (· < ·) := hschema ▸ pairwise_readSeriesSchemas _ _
  obtain ⟨p, hp, hready⟩ := r.remainCols_spec schema [] (init false sid ((init r.chunks).initTimes maxInt64))
    (by rw [nil_append]; exact hsorted.imp fun h => h.ne)
    ⟨rfl, rfl, htimes', _, hat, fun _ _ => rfl⟩
  have hrun : writeRemain r.limit sid (init r.chunks) =
      some (ofColumns r.limit schema r.times (newestValue r.chunks)) := by
    rw [writeRemain, if_neg (by rw [htimes']; simpa using hnil)]
    simp only [hschema, htimes', hp, Option.bind_some, remainTimes_spec r.limit_whole, hready.sw_eq]
    rfl
  obtain ⟨hwf, hrtimes, hsame, hcell⟩ := ofColumns_spec r.limit hsorted r.pairwise_times (newestValue r.chunks)
  have hasc : (ofColumns r.limit schema r.times (newestValue r.chunks)).record.times.Pairwise
      (before true) := hrtimes.symm ▸ r.pairwise_times
  refine ⟨_, hrun, hwf, hsame, Record.sorted_rows hasc, Table.ext_cell (fun t => ?_) fun t f => ?_⟩
  · rw [Record.toTable_rows_isSome, hrtimes, r.mem_times, Table.newest_isSome]
    simp only [mem_map, exists_exists_and_eq_and, Chunk.table_isSome]
  · rw [cell_newest_table r.chunks_wf]
    by_cases ht : t ∈ r.times
    · rw [hcell t ht f]
      split_ifs with hf
      · rfl
      · -- no chunk has the column
        refine (newestValue_eq_none fun c hc => Chunk.value_of_lookup_none ?_ t).symm
        refine lookup_eq_none.mpr fun hmem => hf ?_
        rw [← hschema, mem_readSeriesSchemas r.chunks_wf hat0]
        obtain ⟨u, hu⟩ := exists_mem_of_ne_nil _ (r.chunks_wf c hc).times_ne
        exact ⟨c, hc, ⟨u, hu, ((r.chunks_wf c hc).int64 u hu).2⟩, hmem⟩
    · rw [Record.cell_toTable_rows hwf hasc, hrtimes, valueAt_of_notMem ht]
      exact (newestValue_eq_none fun c hc => Chunk.value_of_notMem fun hmem =>
        ht (r.mem_times.mpr ⟨c, hc, hmem⟩)).symm

end RemainInput

end GeminiTS
