import GeminiTS.Immutable.MergeColumns

/-!
# MergeSeries — merging out-of-order data into all ordered files of a series

* `MergeInput`, `mergeSeries_merged_iff` — over all ordered chunks of the series, when what is written is
  the out-of-order data, newest file first, over the ordered data.
-/

namespace GeminiTS

open Lib List Chunk

variable {F V : Type*} [LinearOrder F]

namespace SeriesOut

/-- Columns given by functions of time, cut every `limit` rows like the time column. -/
def ofColumns (limit : ℕ) (names : List F) (ts : List ℤ) (g : F → ℤ → Option V) : SeriesOut F V :=
  ⟨names.map fun f => (f, (splitEvery limit (graph ts (g f))).map ColumnWriter.segment), splitEvery limit ts⟩

theorem ofColumns_spec (limit : ℕ) {names : List F} (hn : names.Pairwise (· < ·)) {ts : List ℤ}
    (hts : ts.Pairwise (· < ·)) (g : F → ℤ → Option V) :
    (ofColumns limit names ts g).record.WF ∧ (ofColumns limit names ts g).record.times = ts ∧
      (∀ q ∈ (ofColumns limit names ts g).cols, q.2.map Prod.snd = splitEvery limit ts) ∧
      ∀ t ∈ ts, ∀ f, Table.cell (toTable (ofColumns limit names ts g).record.rows) t f =
        if f ∈ names then g f t else none := by
  have hsnd : ∀ f, ((splitEvery limit (graph ts (g f))).map ColumnWriter.segment).map Prod.snd =
      splitEvery limit ts := by
    intro f
    rw [map_map, ← map_fst_graph ts (g f), ← map_splitEvery, map_fst_graph]
    rfl
  have hfst : ∀ f, (((splitEvery limit (graph ts (g f))).map ColumnWriter.segment).map
      Prod.fst).flatten = ts.map (g f) := by
    intro f
    rw [← map_snd_graph, ← flatten_splitEvery ((graph ts (g f)).map Prod.snd), ← map_splitEvery, map_map]
    rfl
  have htimes : (ofColumns limit names ts g).record.times = ts := flatten_splitEvery _
  have hcols : (ofColumns limit names ts g).record.cols = names.map fun f => (f, ts.map (g f)) := by
    simp only [record, ofColumns, map_map]
    exact map_congr_left fun f _ => congrArg (Prod.mk f) (hfst f)
  have hschema : (ofColumns limit names ts g).record.schema = names := by
    rw [Record.schema, hcols, map_map]
    exact map_id _
  have hwf : (ofColumns limit names ts g).record.WF := by
    refine ⟨fun q hq => ?_, hschema.symm ▸ hn⟩
    rw [hcols] at hq
    obtain ⟨f, -, rfl⟩ := mem_map.mp hq
    rw [htimes, length_map]
  refine ⟨hwf, htimes, ?_, fun t ht f => ?_⟩
  · intro q hq
    obtain ⟨f, -, rfl⟩ := mem_map.mp hq
    exact hsnd f
  · have hasc : (ofColumns limit names ts g).record.times.Pairwise (before true) := htimes.symm ▸ hts
    rw [Record.cell_toTable_rows hwf hasc, htimes, Record.column]
    split_ifs with hf
    · have hl : (ofColumns limit names ts g).record.cols.lookup f = some (ts.map (g f)) :=
        Record.lookup_of_mem hwf.ordered (hcols ▸ mem_map_of_mem hf)
      rw [hl, Option.getD_some, valueAt_map ht]
    · have hl : (ofColumns limit names ts g).record.cols.lookup f = none :=
        lookup_eq_none.mpr (by rw [← Record.schema, hschema]; exact hf)
      rw [hl, Option.getD_none, valueAt_replicate_none]

end SeriesOut

namespace MergeWindow

variable (w : MergeWindow F V)

/-- The times and values of the window, every column cut like the time column. -/
structure Output (out : SeriesOut F V) : Prop where
  times_eq : out.times.flatten = w.allTimes
  same_times : ∀ q ∈ out.cols, q.2.map Prod.snd = out.times
  record_wf : out.record.WF
  cell_eq : ∀ t ∈ w.allTimes, ∀ f, Table.cell (toTable out.record.rows) t f = w.cell f t

theorem output_of_done {done : List F} (hp : MergePerformer.Pending w done [] []) :
    w.Output ⟨done.map (MergePerformer.written w), splitEvery w.limit w.allTimes⟩ := by
  obtain ⟨hwf, htimes, hsame, hcell⟩ := SeriesOut.ofColumns_spec w.limit hp.done_sorted w.pairwise_allTimes w.cell
  refine ⟨htimes, hsame, hwf, fun t ht f => (hcell t ht f).trans ?_⟩
  split_ifs with hf
  · rfl
  · have hchunk : w.chunk.cols.lookup f = none := lookup_eq_none.mpr fun hmem => by
      rcases hp.covers_names f hmem with h | h
      · exact hf h
      · simp at h
    rw [cell, w.newestValue_of_absent (hp.absent (by simp) hf) (w.window_of_mem_allTimes ht),
      value_of_lookup_none hchunk]
    rfl

theorem original_record (c : Chunk F V) (hc : c.WF) : (SeriesOut.original c).record = c.record := by
  simp only [SeriesOut.record, SeriesOut.original, record, map_map, Record.mk.injEq]
  refine ⟨map_congr_left fun q hq => ?_, rfl⟩
  have hlen : q.2.length = c.timeSegs.length := by
    simpa using congrArg length (hc.aligned q hq)
  simp only [Function.comp_apply, map_fst_zip hlen.le]

/-- The chunk copied as it is, when there is nothing to merge into it. -/
theorem output_original (h : w.newTimes = []) : w.Output (SeriesOut.original w.chunk) := by
  have hall : w.allTimes = w.chunk.times := by
    rw [allTimes, h]
    cases w.chunk.times <;> simp [mergeTimes]
  have hrec := original_record w.chunk w.chunk_wf
  refine ⟨hall.symm, ?_, by rw [hrec]; exact w.chunk_wf.record_wf, ?_⟩
  · intro q hq
    obtain ⟨⟨f, segs⟩, hmem, rfl⟩ := mem_map.mp hq
    have hlen : segs.length = w.chunk.timeSegs.length := by
      simpa using congrArg length (w.chunk_wf.aligned _ hmem)
    exact map_snd_zip hlen.ge
  · intro t ht f
    rw [hrec]
    have hnone : newestValue w.chunks f t = none :=
      w.newestValue_of_notMem (w.window_of_mem_allTimes ht) (by rw [h]; simp)
    rw [cell, hnone]
    exact w.chunk_wf.cell_table t f

end MergeWindow

namespace MergePerformer

variable {w : MergeWindow F V} {ur : UnorderedReader F V}

variable {pos : F → ℤ} {tm : ℤ}

theorem readSchemas_eq {c : Chunk F V} (hc : c.WF) {r : UnorderedColumnReader F V} (h : r.At c pos tm) (b : ℤ) (f : F) :
    f ∈ r.readSchemas b ↔ (∃ t ∈ c.times, t ≤ b) ∧ f ∈ c.cols.map Prod.fst := by
  unfold UnorderedColumnReader.readSchemas
  rw [h.times_eq, ← h.names_eq]
  have hasc := hc.ascending
  cases hts : c.times with
  | nil => exact absurd hts hc.times_ne
  | cons t ts =>
    rw [hts, pairwise_cons] at hasc
    simp only
    split_ifs with hlt
    · simp only [not_mem_nil, false_iff, not_and]
      rintro ⟨s, hs, hle⟩
      rcases mem_cons.mp hs with rfl | hs
      · omega
      · have := hasc.1 s hs
        omega
    · exact ⟨fun hf => ⟨⟨t, by simp, not_lt.mp hlt⟩, hf⟩, And.right⟩

theorem mem_readSeriesSchemas {chunks : List (Chunk F V)} (hcs : ∀ c ∈ chunks, c.WF) (h : ur.At chunks pos tm) (b : ℤ)
    (f : F) : f ∈ ur.readSeriesSchemas b ↔ ∃ c ∈ chunks, (∃ t ∈ c.times, t ≤ b) ∧ f ∈ c.cols.map Prod.fst := by
  rw [UnorderedReader.readSeriesSchemas, mem_insertionSort, mem_dedup, mem_flatMap]
  have hiff := forall₂_iff_get.mp h
  constructor
  · rintro ⟨r, hr, hf⟩
    obtain ⟨i, hi, rfl⟩ := getElem_of_mem hr
    have hi' : i < chunks.length := hiff.1 ▸ hi
    have hmem := get_mem chunks ⟨i, hi'⟩
    exact ⟨_, hmem, (readSchemas_eq (hcs _ hmem) (hiff.2 i hi' hi) _ f).mp hf⟩
  · rintro ⟨c, hc, hf⟩
    obtain ⟨i, hi, rfl⟩ := getElem_of_mem hc
    have hi' : i < ur.readers.length := hiff.1 ▸ hi
    exact ⟨_, getElem_mem hi', (readSchemas_eq (hcs _ hc) (hiff.2 i hi hi') _ f).mpr hf⟩

theorem pairwise_readSeriesSchemas (ur : UnorderedReader F V) (b : ℤ) : (ur.readSeriesSchemas b).Pairwise (· < ·) := by
  have hle := pairwise_insertionSort (· ≤ ·) ((ur.readers.flatMap fun r => r.readSchemas b).dedup)
  have hnodup : (ur.readSeriesSchemas b).Nodup := (perm_insertionSort (· ≤ ·) _).nodup_iff.mpr (nodup_dedup _)
  exact (hle.and hnodup).imp fun h => lt_of_le_of_ne h.1 h.2

theorem seriesChanged_eq (p : MergePerformer F V) (sid : ℕ) {orderTimes : List ℤ} {last b : ℤ}
    (hlast : orderTimes.getLast? = some last) (hb : (if p.lastSeries = true then maxInt64 else last) = b) :
    p.seriesChanged sid orderTimes =
      if (p.ur.initTimes b).times.length = 0 then
        { p with
          sid := sid, ur := p.ur.initTimes b, noUnorderedSeries := true, unorderedSchemas := []
          mergedTimes := orderTimes }
      else
        { p with
          sid := sid, ur := p.ur.initTimes b, noUnorderedSeries := false
          unorderedSchemas := (p.ur.initTimes b).readSeriesSchemas b
          mergedTimes := mergeTimes orderTimes (p.ur.initTimes b).times } := by
  unfold seriesChanged
  rw [hlast]
  simp only [hb]

/-- The performer after `SeriesChanged`: nothing written, all columns pending. -/
theorem seriesChanged_ready (sid : ℕ) (h : ur.At w.chunks (fun _ => w.lower) w.lower) :
    ((init w.lastSeries sid ur).seriesChanged sid w.chunk.times).sid = sid ∧
      Ready w [] ((init w.lastSeries sid ur).seriesChanged sid w.chunk.times) ∧
      Pending w [] ((init w.lastSeries sid ur).seriesChanged sid w.chunk.times).unorderedSchemas
        (w.chunk.cols.map Prod.fst) := by
  obtain ⟨hat, htimes⟩ := h.initTimes w.chunks_wf w.lower_le_upper
  have hlast : w.chunk.times.getLast? = some w.lastTime := getLast?_eq_some_getLast w.chunk_wf.times_ne
  have hchanged := seriesChanged_eq (init w.lastSeries sid ur) sid hlast (b := w.upper) rfl
  have hpending : ∀ schemas : List F, schemas.Pairwise (· < ·) → (w.newTimes = [] → schemas = []) →
      (w.newTimes ≠ [] → ∀ g, w.InSchemas g → g ∈ schemas) →
      Pending w [] schemas (w.chunk.cols.map Prod.fst) := fun schemas h1 h2 h3 =>
    ⟨.nil, h1, w.chunk_wf.names, by simp, by simp, h2, fun hne g hg => .inr (h3 hne g hg), fun g hg => .inr hg⟩
  by_cases hnil : ((init w.lastSeries sid ur).ur.initTimes w.upper).times.length = 0
  · have hnew : w.newTimes = [] := htimes.symm.trans (length_eq_zero_iff.mp hnil)
    rw [hchanged, if_pos hnil]
    refine ⟨rfl, ⟨⟨rfl, by simp [hnew], ?_, htimes⟩, rfl, rfl, hat⟩,
      hpending [] .nil (fun _ => rfl) (fun hne => absurd hnew hne)⟩
    rw [MergeWindow.allTimes, hnew]
    cases w.chunk.times <;> simp [mergeTimes]
  · have hnew : w.newTimes ≠ [] := by
      intro h'
      apply hnil
      exact length_eq_zero_iff.mpr (htimes.trans h')
    rw [hchanged, if_neg hnil]
    refine ⟨rfl, ⟨⟨rfl, by simp [hnew], ?_, htimes⟩, rfl, rfl, hat⟩,
      hpending _ (pairwise_readSeriesSchemas _ _) (fun h' => absurd h' hnew)
        (fun _ g hg => (mem_readSeriesSchemas w.chunks_wf hat _ g).mpr hg)⟩
    exact congrArg (mergeTimes w.chunk.times) htimes

/-- When all columns are written every reader stands at the upper bound. -/
theorem Ready.at_upper {done : List F} {p : MergePerformer F V} (h : Ready w done p)
    (hp : Pending w done [] []) : p.ur.At w.chunks (fun _ => w.upper) w.upper := by
  refine forall₂_iff_get.mpr ⟨h.readers.length_eq, fun i h1 h2 =>
    ((forall₂_iff_get.mp h.readers).2 i h1 h2).congr (fun g hg => ?_) rfl⟩
  have hmem := get_mem w.chunks ⟨i, h1⟩
  by_cases hd : g ∈ done
  · simp [posOf, hd]
  · rw [posOf_of_notMem hd]
    exact countLe_congr (w.chunks_wf _ hmem).ascending w.lower_le_upper (hp.absent (by simp) hd _ hmem hg)

end MergePerformer

open MergePerformer

variable {sid : ℕ} {m : ℤ} {unordered : List (Chunk F V)} {ur : UnorderedReader F V}

theorem UnorderedReader.At.hasSeries {chunks : List (Chunk F V)} (h : ur.At chunks (fun _ => m) m) {c : Chunk F V}
    (hc : c ∈ chunks) (hwf : c.WF) {t : ℤ} (ht : t ∈ c.times) (hlt : m < t) : ur.hasSeries = true := by
  have hcount : countLe c.times m < c.times.length := by
    by_contra hge
    have hmem : t ∈ c.times.filter (m < ·) := mem_filter.mpr ⟨ht, by simpa using hlt⟩
    rw [← drop_countLe hwf.ascending m, drop_eq_nil_of_le (not_lt.mp hge)] at hmem
    simp at hmem
  obtain ⟨i, hi, rfl⟩ := getElem_of_mem hc
  have hi' : i < ur.readers.length := h.length_eq ▸ hi
  exact any_eq_true.mpr ⟨_, getElem_mem hi', ((forall₂_iff_get.mp h).2 i hi hi').matchSeries.mpr hcount⟩

/-- **One ordered chunk**: its window is written, and every reader is moved to the upper bound. -/
theorem mergeChunk_output (w : MergeWindow F V) (hsid : sid ≠ 0) (h : ur.At w.chunks (fun _ => w.lower) w.lower) :
    ∃ out ur', mergeChunk w.limit sid w.lastSeries w.chunk ur = some (out, ur') ∧ w.Output out ∧
      ur'.At w.chunks (fun _ => w.upper) w.upper := by
  unfold mergeChunk iterCurrentChunk
  by_cases hseries : ur.hasSeries = true
  · obtain ⟨hs, hready, hpending⟩ := seriesChanged_ready sid h
    obtain ⟨p, done, schemas, hwalk, hs', hready', hschemas, hpending'⟩ :=
      walkColumn_ready w.chunk.cols [] _ _ (fun q hq => hq) hready rfl hpending
    obtain ⟨p', hremain, hs'', hready'', hpending''⟩ := hready'.writeRemainCol hschemas hpending'
    have hsid' : p'.sid ≠ 0 := by
      rw [hs'', hs', hs]
      exact hsid
    have hinit : (init w.lastSeries sid ur).ur.hasSeries = true := hseries
    refine ⟨_, p'.ur, ?_, w.output_of_done hpending'', hready''.at_upper hpending''⟩
    rw [if_pos hinit]
    have hwalk' : walkColumn w.limit w.chunk.times w.chunk.cols ((init w.lastSeries sid ur).seriesChanged
          (init w.lastSeries sid ur).sid w.chunk.times) = some p := hwalk
    rw [hwalk', Option.bind_some, finishSeries, hremain]
    simp only [Option.map_some, writeMergedTime, if_neg hsid', hready''.sw_eq,
      hready''.mergedTimes_eq, ColumnWriter.writeAll_eq _ w.allTimes_ne]
  · have hnone : ∀ c ∈ w.chunks, ∀ t ∈ c.times, ¬ w.lower < t := by
      intro c hc t ht hlt
      exact hseries (h.hasSeries hc (w.chunks_wf c hc) ht hlt)
    have hnew : w.newTimes = [] := by
      rw [eq_nil_iff_forall_not_mem]
      intro t ht
      obtain ⟨⟨c, hc, hmem⟩, hlt, -⟩ := w.mem_newTimes.mp ht
      exact hnone c hc t hmem hlt
    refine ⟨_, ur, ?_, w.output_original hnew, ?_⟩
    · rw [if_neg (by exact hseries)]
      rfl
    · refine forall₂_iff_get.mpr ⟨h.length_eq, fun i h1 h2 =>
        have hmem := get_mem w.chunks ⟨i, h1⟩
        have hcount := countLe_congr (w.chunks_wf _ hmem).ascending w.lower_le_upper
          fun t ht hwin => hnone _ hmem t ht hwin.1
        ((forall₂_iff_get.mp h).2 i h1 h2).congr (fun _ _ => hcount) hcount⟩

/-! ### All ordered chunks -/

/-- What is merged: the chunks of the series in the ordered files, in the order of their times, and
those in the out-of-order files, oldest file first. -/
structure MergeInput (F V : Type*) [LinearOrder F] where
  limit : ℕ
  limit_pos : 0 < limit
  sid : ℕ
  sid_ne : sid ≠ 0
  ordered : List (Chunk F V)
  ordered_ne : ordered ≠ []
  ordered_wf : ∀ c ∈ ordered, c.WF
  ordered_times : (ordered.flatMap Chunk.times).Pairwise (· < ·)
  unordered : List (Chunk F V)
  unordered_wf : ∀ c ∈ unordered, c.WF

/-- What is written for a list of ordered chunks, when the out-of-order rows up to `m` have been
merged before. -/
structure MergedFrom (unordered cs : List (Chunk F V)) (m : ℤ) (outs : List (SeriesOut F V)) : Prop where
  wf : ∀ o ∈ outs, o.record.WF ∧ ∀ q ∈ o.cols, q.2.map Prod.snd = o.times
  sorted : (outs.flatMap fun o => o.record.times).Pairwise (· < ·)
  mem_iff : ∀ t, t ∈ (outs.flatMap fun o => o.record.times) ↔
    t ∈ cs.flatMap Chunk.times ∨ m < t ∧ ∃ c ∈ unordered, t ∈ c.times
  cell_eq : ∀ t ∈ (outs.flatMap fun o => o.record.times), ∀ f,
    Table.cell (toTable (outs.flatMap fun o => o.record.rows)) t f =
      (newestValue unordered f t).or (Table.cell (toTable (cs.flatMap Chunk.rows)) t f)

theorem map_fst_flatMap_rows (outs : List (SeriesOut F V)) :
    (outs.flatMap fun o => o.record.rows).map Prod.fst = outs.flatMap fun o => o.record.times := by
  simp only [map_flatMap, Record.map_fst_rows]

theorem map_fst_flatMap_chunkRows (cs : List (Chunk F V)) : (cs.flatMap rows).map Prod.fst = cs.flatMap times := by
  simp only [map_flatMap, map_fst_rows]

/-- The chunks from some point on; the last chunk takes all that is left. -/
theorem mergeSeries_from {limit : ℕ} (hl : ColumnWriter.Whole limit) (hsid : sid ≠ 0) (hu : ∀ c ∈ unordered, c.WF) :
    ∀ (cs : List (Chunk F V)) (m : ℤ) (ur : UnorderedReader F V), (cs = [] → m = maxInt64) → (∀ c ∈ cs, c.WF) →
      (cs.flatMap times).Pairwise (· < ·) → (∀ t ∈ cs.flatMap times, m < t) →
      ur.At unordered (fun _ => m) m →
      ∃ outs, mergeSeries limit sid cs ur = some outs ∧ MergedFrom unordered cs m outs := by
  intro cs
  induction cs with
  | nil =>
    intro m ur hend _ _ _ _
    obtain rfl := hend rfl
    refine ⟨[], rfl, by simp, .nil, fun t => ⟨by simp, ?_⟩, by simp⟩
    rintro (h | ⟨hlt, c, hc, ht⟩)
    · simp at h
    · exact absurd hlt (not_lt.mpr ((hu c hc).int64 t ht).2)
  | cons c cs ih =>
    intro m ur _ hwf hasc hm hat
    obtain ⟨-, hasc', hacross⟩ := pairwise_append.mp hasc
    have hc := hwf c (by simp)
    let w : MergeWindow F V := ⟨limit, hl, unordered, hu, c, hc, cs.isEmpty, m, fun t ht => hm t (mem_append_left _ ht)⟩
    obtain ⟨out, ur', hchunk, hout, hat'⟩ := mergeChunk_output w hsid hat
    have hkeys : out.record.rows.map Prod.fst = w.allTimes := out.record.map_fst_rows.trans hout.times_eq
    have htimes : out.record.times = w.allTimes := hout.times_eq
    have hend : cs = [] → w.upper = maxInt64 := by
      rintro rfl
      rfl
    have hlater : ∀ t ∈ cs.flatMap times, w.upper < t := by
      intro t ht
      cases cs with
      | nil => simp at ht
      | cons c' cs => exact hacross _ w.lastTime_mem t ht
    obtain ⟨outs, hrest, hmerged⟩ := ih w.upper ur' hend (forall_mem_cons.mp hwf).2 hasc' hlater hat'
    have hafter : ∀ t ∈ (outs.flatMap fun o => o.record.times), w.upper < t := by
      intro t ht
      rcases (hmerged.mem_iff t).mp ht with h | h
      · exact hlater t h
      · exact h.1
    refine ⟨out :: outs, ?_, forall_mem_cons.mpr ⟨⟨hout.record_wf, hout.same_times⟩, hmerged.wf⟩, ?_, ?_, ?_⟩
    · have hchunk' : mergeChunk limit sid cs.isEmpty c ur = some (out, ur') := hchunk
      rw [mergeSeries, hchunk']
      exact congrArg (Option.map (out :: ·)) hrest
    · rw [flatMap_cons, htimes, pairwise_append]
      exact ⟨w.pairwise_allTimes, hmerged.sorted, fun a ha b hb =>
        (w.window_of_mem_allTimes ha).2.trans_lt (hafter b hb)⟩
    · intro t
      rw [flatMap_cons, flatMap_cons, mem_append, mem_append, htimes, hmerged.mem_iff, w.mem_allTimes, w.mem_newTimes]
      constructor
      · rintro ((h | h) | h | h)
        · exact .inl (.inl h)
        · exact .inr ⟨h.2.1, h.1⟩
        · exact .inl (.inr h)
        · exact .inr ⟨w.lower_le_upper.trans_lt h.1, h.2⟩
      · rintro ((h | h) | h)
        · exact .inl (.inl h)
        · exact .inr (.inl h)
        · rcases le_or_gt t w.upper with hle | hgt
          · exact .inl (.inr ⟨h.2, h.1, hle⟩)
          · exact .inr (.inr ⟨hgt, h.2⟩)
    · intro t ht f
      rw [flatMap_cons, htimes, mem_append] at ht
      rw [flatMap_cons, flatMap_cons]
      rcases ht with ht | ht
      · -- a time of the first chunk's window
        have hle := (w.window_of_mem_allTimes ht).2
        rw [cell_append_of_notMem_right (by
            rw [map_fst_flatMap_rows]
            exact fun h => absurd (hafter t h) (not_lt.mpr hle)),
          cell_append_of_notMem_right (by
            rw [map_fst_flatMap_chunkRows]
            exact fun h => absurd (hlater t h) (not_lt.mpr hle)), hout.cell_eq t ht f, ← table, hc.cell_table]
        rfl
      · have hgt := hafter t ht
        rw [cell_append_of_notMem (by
            rw [hkeys]
            exact fun h => absurd (w.window_of_mem_allTimes h).2 (not_le.mpr hgt)),
          hmerged.cell_eq t ht f, cell_append_of_notMem (by
            rw [map_fst_rows]
            exact fun h => absurd (w.le_upper h) (not_le.mpr hgt))]

/-- When the out-of-order rows all come after `m`, what is written is the overlay. -/
theorem MergedFrom.overlay {cs : List (Chunk F V)} {outs : List (SeriesOut F V)} (h : MergedFrom unordered cs m outs)
    (hu : ∀ c ∈ unordered, c.WF) (hm : ∀ c ∈ unordered, ∀ t ∈ c.times, m < t) :
    Sorted (before true) (outs.flatMap fun o => o.record.rows) ∧ toTable (outs.flatMap fun o => o.record.rows) =
        (Table.newest (unordered.map table)).overlay (toTable (cs.flatMap rows)) := by
  have hkeys := map_fst_flatMap_rows outs
  have hkeys' := map_fst_flatMap_chunkRows cs
  refine ⟨?_, Table.ext_cell (fun t => ?_) fun t f => ?_⟩
  · have h := h.sorted
    rw [← hkeys, pairwise_map] at h
    exact h
  · rw [toTable_isSome_iff_mem, hkeys, h.mem_iff, Table.overlay_isSome,
      Table.newest_isSome, toTable_isSome_iff_mem, hkeys', or_comm]
    simp only [mem_map, exists_exists_and_eq_and, table_isSome]
    refine or_congr ⟨And.right, fun h => ⟨?_, h⟩⟩ Iff.rfl
    obtain ⟨c, hc, ht⟩ := h
    exact hm c hc t ht
  · rw [Table.cell_overlay, cell_newest_table hu]
    by_cases ht : t ∈ (outs.flatMap fun o => o.record.times)
    · exact h.cell_eq t ht f
    · -- a time nobody has
      have hnone := toTable_of_notMem (hkeys.symm ▸ ht)
      rw [h.mem_iff, not_or] at ht
      have hnone' := toTable_of_notMem (hkeys'.symm ▸ ht.1)
      have hnew : newestValue unordered f t = none := newestValue_eq_none fun c hc =>
        value_of_notMem fun hmem => ht.2 ⟨hm c hc t hmem, c, hc, hmem⟩
      rw [Table.cell, Table.cell, hnone, hnone', hnew]
      rfl

namespace MergeInput

variable (i : MergeInput F V)

theorem lower_lt_unordered : ∀ c ∈ i.unordered, ∀ t ∈ c.times, minInt64 - 1 < t := fun c hc t ht =>
  Int.sub_one_lt_of_le ((i.unordered_wf c hc).int64 t ht).1

theorem mergedFrom_start (hl : ColumnWriter.Whole i.limit) :
    ∃ outs, mergeSeries i.limit i.sid i.ordered (UnorderedReader.init i.unordered) = some outs ∧
      MergedFrom i.unordered i.ordered (minInt64 - 1) outs := by
  have hordered : ∀ t ∈ i.ordered.flatMap times, minInt64 - 1 < t := by
    intro t ht
    obtain ⟨c, hc, ht⟩ := mem_flatMap.mp ht
    exact Int.sub_one_lt_of_le ((i.ordered_wf c hc).int64 t ht).1
  exact mergeSeries_from hl i.sid_ne i.unordered_wf i.ordered (minInt64 - 1) _
    (fun h => absurd h i.ordered_ne) i.ordered_wf i.ordered_times hordered
    (UnorderedReader.at_init i.unordered_wf i.lower_lt_unordered)

/-- Over all ordered files of the series the rows written run in time order and are the out-of-order data over the
ordered data, where the newest out-of-order file with a value wins; every column is cut into segments like the time
column. -/
def Merged : Prop :=
  ∃ outs, mergeSeries i.limit i.sid i.ordered (UnorderedReader.init i.unordered) = some outs ∧
    (∀ o ∈ outs, o.record.WF ∧ ∀ q ∈ o.cols, q.2.map Prod.snd = o.times) ∧
    Sorted (before true) (outs.flatMap fun o => o.record.rows) ∧
    toTable (outs.flatMap fun o => o.record.rows) = (Table.newest (i.unordered.map Chunk.table)).overlay
        (toTable (i.ordered.flatMap Chunk.rows))

theorem merged_of_whole (hl : ColumnWriter.Whole i.limit) : i.Merged := by
  obtain ⟨outs, hrun, hmerged⟩ := i.mergedFrom_start hl
  exact ⟨outs, hrun, hmerged.wf, hmerged.overlay i.unordered_wf i.lower_lt_unordered⟩

end MergeInput

/-! ### A part that is carried over -/

/-- Two segments that are written as they are, the first one with a row too much: the row that is left of it cannot
take another one. -/
theorem MergePerformer.walkSegment_carried {limit : ℕ} (hl : 1 < limit) (h8 : ¬ 8 ∣ limit) {p : MergePerformer F V}
    (hno : p.noUnorderedSeries = true) (hcw : p.cw = ColumnWriter.init) {col : ColVal V} (hcol : col.length = limit + 1)
    (v : Option V) {ts : List ℤ} (hts : ts.length = limit + 2) : walkSegment limit [col, [v]] ts p = none := by
  obtain ⟨segs, w, t, hwrite⟩ := ColumnWriter.init_write_long (V := V) hl hcol
    (show (ts.take (limit + 1)).length = limit + 1 by rw [length_take]; omega)
  obtain ⟨u, hu⟩ := length_eq_one_iff.mp (show (ts.drop (limit + 1)).length = 1 by rw [length_drop]; omega)
  have hmod : limit % 8 ≠ 0 := fun h => h8 (Nat.dvd_of_mod_eq_zero h)
  have hpanic : ColumnWriter.write limit ⟨[w], [t], limit % 8⟩ [v] [u] = none := by
    simp [ColumnWriter.write, hmod]
  simp [walkSegment, handle, hno, MergePerformer.write, hcw, hcol, hwrite, hu, hpanic]

/-- The times that there are, one after the other. -/
def timeNumber (k : ℕ) : ℤ := minInt64 + k

/-- A chunk with one column whose first segment has a row more than the limit. -/
def carriedChunk (limit : ℕ) : Chunk ℕ ℕ where
  cols := [(0, [replicate (limit + 1) none, [none]])]
  timeSegs := [(range (limit + 1)).map timeNumber, [timeNumber (limit + 1)]]

/-- A chunk with one row. -/
def oneRow (k : ℕ) : Chunk ℕ ℕ := ⟨[(0, [[none]])], [[timeNumber k]]⟩

theorem times_carriedChunk (limit : ℕ) : (carriedChunk limit).times = (range (limit + 2)).map timeNumber := by
  rw [range_succ, map_append]
  simp [Chunk.times, carriedChunk]

theorem pairwise_timeNumber (n : ℕ) : ((range n).map timeNumber).Pairwise (· < ·) :=
  pairwise_map.mpr (pairwise_lt_range.imp fun h => by simp only [timeNumber]; omega)

theorem timeNumber_int64 {k : ℕ} (h : k < 2 ^ 64) : minInt64 ≤ timeNumber k ∧ timeNumber k ≤ maxInt64 := by
  simp only [timeNumber, minInt64, maxInt64]
  omega

theorem oneRow_wf {k : ℕ} (h : k < 2 ^ 64) : (oneRow k).WF :=
  ⟨by simp [oneRow], by simp [oneRow], by simp [oneRow], by simp [oneRow], by simp [oneRow, Chunk.times],
    by simpa [oneRow, Chunk.times] using timeNumber_int64 h⟩

theorem carriedChunk_wf {limit : ℕ} (h : limit < 2 ^ 63) : (carriedChunk limit).WF where
  names := by simp [carriedChunk]
  aligned := by simp [carriedChunk]
  seg_ne := by simp [carriedChunk]
  ne := by simp [carriedChunk]
  ascending := by
    rw [times_carriedChunk]
    exact pairwise_timeNumber _
  int64 := by
    rw [times_carriedChunk]
    exact forall_mem_map.mpr fun k hk => timeNumber_int64 (by have := mem_range.mp hk; omega)

theorem carried_wf {limit : ℕ} (hint : limit < 2 ^ 63) :
    ∀ c ∈ [carriedChunk limit, oneRow (limit + 2)], c.WF :=
  forall_mem_cons.mpr ⟨carriedChunk_wf hint, forall_mem_singleton.mpr (oneRow_wf (by omega))⟩

theorem carried_late_wf {limit : ℕ} (hint : limit < 2 ^ 63) : ∀ c ∈ [oneRow (limit + 3)], c.WF :=
  forall_mem_singleton.mpr (oneRow_wf (by omega))

theorem carried_times (limit : ℕ) :
    ([carriedChunk limit, oneRow (limit + 2)].flatMap Chunk.times).Pairwise (· < ·) := by
  have h := pairwise_timeNumber (limit + 3)
  rw [range_succ, map_append, ← times_carriedChunk] at h
  simpa [oneRow, Chunk.times] using h

/-- That chunk, a row behind it, and an out-of-order row behind both. -/
def carriedInput (limit : ℕ) (hl : 0 < limit) (hint : limit < 2 ^ 63) : MergeInput ℕ ℕ where
  limit := limit
  limit_pos := hl
  sid := 1
  sid_ne := Nat.one_ne_zero
  ordered := [carriedChunk limit, oneRow (limit + 2)]
  ordered_ne := cons_ne_nil _ _
  ordered_wf := carried_wf hint
  ordered_times := carried_times limit
  unordered := [oneRow (limit + 3)]
  unordered_wf := carried_late_wf hint

theorem mergeSeries_carried {limit : ℕ} (hl : 1 < limit) (h8 : ¬ 8 ∣ limit) :
    mergeSeries limit 1 [carriedChunk limit, oneRow (limit + 2)]
      (UnorderedReader.init [oneRow (limit + 3)]) = none := by
  have hlast : (carriedChunk limit).times.getLast? = some (timeNumber (limit + 1)) := by
    rw [times_carriedChunk, range_succ, map_append, map_singleton, getLast?_concat]
  -- no out-of-order row is merged into the first chunk
  have hnone : ((UnorderedReader.init [oneRow (limit + 3)]).initTimes (timeNumber (limit + 1))).times = [] := by
    have hcount : countLe [timeNumber (limit + 3)] (timeNumber (limit + 1)) = 0 := by
      rw [countLe_eq (pairwise_singleton _ _)]
      simp [timeNumber]
    simp [UnorderedReader.initTimes, UnorderedReader.init, UnorderedColumnReader.init, UnorderedColumnReader.readTime,
      UnorderedColumnReader.readTimeFrom, oneRow, Chunk.times, hcount, mergeTimes]
  have hlen : (carriedChunk limit).times.length = limit + 2 := by
    rw [times_carriedChunk]
    simp
  have hwalk (p : MergePerformer ℕ ℕ) (hno : p.noUnorderedSeries = true) (hcw : p.cw = ColumnWriter.init) :
      MergePerformer.walkColumn limit (carriedChunk limit).times (carriedChunk limit).cols p = none := by
    show (p.columnChanged limit 0).bind _ = none
    rw [MergePerformer.columnChanged, if_pos (by rw [hno]; rfl), Option.bind_some]
    show (MergePerformer.walkSegment limit [replicate (limit + 1) none, [none]] _ _).bind _ = none
    rw [MergePerformer.walkSegment_carried hl h8 _ _ length_replicate none hlen]
    · rfl
    · exact hno
    · exact hcw
  have hpos : (MergePerformer.init [oneRow (limit + 2)].isEmpty 1
      (UnorderedReader.init [oneRow (limit + 3)])).ur.hasSeries = true := rfl
  rw [mergeSeries, mergeChunk, MergePerformer.iterCurrentChunk, if_pos hpos, hwalk]
  · rfl
  · simp [MergePerformer.seriesChanged, hlast, MergePerformer.init, hnone]
  · simp [MergePerformer.seriesChanged, hlast, MergePerformer.init, hnone]

/-- Ordered rows in two segments, and an out-of-order row in the first one. -/
def lateRow (limit : ℕ) (hl : 0 < limit) : MergeInput ℕ ℕ where
  limit := limit
  limit_pos := hl
  sid := 1
  sid_ne := Nat.one_ne_zero
  ordered := [⟨[(0, [[some 1, none, some 3, some 4], [some 5]])], [[10, 20, 30, 40], [50]]⟩]
  ordered_ne := cons_ne_nil _ _
  ordered_wf := by decide
  ordered_times := by decide
  unordered := [⟨[(0, [[some 6]]), (1, [[some 7]])], [[15]]⟩]
  unordered_wf := by decide

end GeminiTS
