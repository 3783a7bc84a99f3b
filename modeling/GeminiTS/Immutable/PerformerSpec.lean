import GeminiTS.Immutable.MergePerformer

/-!
# PerformerSpec — what the merge performer writes

Column after column, `mergePerformer` writes the columns of its window, whichever of its paths a
column takes.
-/

namespace GeminiTS

open Lib List Function

variable {F V : Type*} [LinearOrder F]

namespace SeriesOut

variable {cols : List (F × List (Segment V))} {times : List (List ℤ)}

omit [LinearOrder F] in
theorem writeData_concat (f : F) (written segs : List (Segment V)) :
    writeData segs (⟨cols ++ [(f, written)], times⟩ : SeriesOut F V) = ⟨cols ++ [(f, written ++ segs)], times⟩ := by
  simp [writeData]

end SeriesOut

namespace MergePerformer

variable {w : MergeWindow F V} {done : List F} {f : F} {p : MergePerformer F V}

/-- Up to where the readers have read each column, when those of `done` have been written. -/
def posOf (w : MergeWindow F V) (done : List F) (f : F) : ℤ := if f ∈ done then w.upper else w.lower

theorem update_posOf (w : MergeWindow F V) (done : List F) (f : F) :
    update (posOf w done) f w.upper = posOf w (done ++ [f]) := by
  funext g
  by_cases hg : g = f
  · subst hg
    simp [posOf]
  · simp [posOf, hg]

/-- A column as it is written. -/
def written (w : MergeWindow F V) (f : F) : F × List (Segment V) := (f, w.segments f)

/-- What does not change from column to column. -/
structure Base (w : MergeWindow F V) (p : MergePerformer F V) : Prop where
  lastSeries_eq : p.lastSeries = w.lastSeries
  noSeries : p.noUnorderedSeries = true ↔ w.newTimes = []
  mergedTimes_eq : p.mergedTimes = w.allTimes
  times_eq : p.ur.times = w.newTimes

/-- The columns of `done` have been written, nothing of any other one. -/
structure Ready (w : MergeWindow F V) (done : List F) (p : MergePerformer F V) : Prop extends Base w p where
  cw_eq : p.cw = ColumnWriter.init
  sw_eq : p.sw = ⟨done.map (written w), []⟩
  readers : p.ur.At w.chunks (posOf w done) w.upper

/-- Of column `f` the rows up to time `a` have been passed to the writer. -/
structure InColumn (w : MergeWindow F V) (done : List F) (f : F) (a : ℤ) (p : MergePerformer F V) :
    Prop extends Base w p where
  writer : ∃ segs, p.sw = ⟨done.map (written w) ++ [(f, segs)], []⟩ ∧
    p.cw.Holds w.limit (graph (w.allTimes.filter (· ≤ a)) (w.cell f)) segs
  readers : p.ur.At w.chunks (update (posOf w done) f a) w.upper
  onColumn : p.ur.OnColumn w.chunks f a
  absent : p.noUnorderedColumn = true → w.Absent f

variable {limit : ℕ} {a b : ℤ} {ts : List ℤ} {col : ColVal V}

omit [LinearOrder F] in
theorem write_spec {stream : TimedCol V} {segs : List (Segment V)} {cols : List (F × List (Segment V))}
    (hl : ColumnWriter.Whole limit) (hsw : p.sw = ⟨cols ++ [(f, segs)], []⟩) (hcw : p.cw.Holds limit stream segs)
    (z : TimedCol V) (lastSeg : Bool) :
    ∃ cw sw, p.write limit (z.map Prod.snd) (z.map Prod.fst) lastSeg = some { p with cw := cw, sw := sw } ∧
      if lastSeg then
        cw = ColumnWriter.init ∧ sw = ⟨cols ++ [(f, (splitEvery limit (stream ++ z)).map ColumnWriter.segment)], []⟩
      else ∃ segs', sw = ⟨cols ++ [(f, segs')], []⟩ ∧ cw.Holds limit (stream ++ z) segs' := by
  obtain ⟨segs', cw', hwrite, hholds⟩ := hcw.write hl z
  simp only [write, hwrite, hsw, SeriesOut.writeData_concat]
  cases lastSeg with
  | false => exact ⟨cw', _, rfl, segs ++ segs', rfl, hholds⟩
  | true =>
    obtain ⟨hflush, hinit⟩ := hholds.flush hl.1
    refine ⟨_, _, rfl, hinit, ?_⟩
    rw [hflush]

theorem column_split (f : F) (hab : a ≤ b) : graph (w.allTimes.filter (· ≤ a)) (w.cell f) ++
        graph (w.allTimes.filter fun t => a < t ∧ t ≤ b) (w.cell f) =
      graph (w.allTimes.filter (· ≤ b)) (w.cell f) := by
  rw [← graph_append, ← take_countLe w.pairwise_allTimes, ← take_countLe w.pairwise_allTimes,
    ← extract_countLe w.pairwise_allTimes hab]
  have hmono := countLe_mono w.pairwise_allTimes hab
  congr 1
  have h0 := extract_append_extract w.allTimes (Nat.zero_le (countLe w.allTimes a)) hmono
  simpa using h0

theorem column_eq_filter (f : F) : graph (w.allTimes.filter (· ≤ w.upper)) (w.cell f) = w.column f := by
  rw [filter_eq_self.mpr]
  · rfl
  · intro t ht
    simpa using (w.window_of_mem_allTimes ht).2

/-- The readers need not move over a column that no chunk has rows of. -/
theorem InColumn.at_of_absent (h : InColumn w done f a p) (habs : w.Absent f) (hla : w.lower ≤ a) (hab : a ≤ b)
    (hb : b ≤ w.upper) : p.ur.At w.chunks (update (posOf w done) f b) w.upper := by
  refine forall₂_iff_get.mpr ⟨h.readers.length_eq, fun i h1 h2 =>
    ((forall₂_iff_get.mp h.readers).2 i h1 h2).congr (fun g hg => ?_) rfl⟩
  by_cases hgf : g = f
  · subst hgf
    rw [update_self, update_self]
    refine countLe_congr (w.chunks_wf _ (get_mem _ _)).ascending hab fun t ht hwin => ?_
    exact habs _ (get_mem _ _) hg t ht ⟨hla.trans_lt hwin.1, hwin.2.trans hb⟩
  · rw [update_of_ne hgf, update_of_ne hgf]

theorem InColumn.readUnordered (h : InColumn w done f a p) (hla : w.lower ≤ a) (hab : a ≤ b) (hb : b ≤ w.upper) :
    ∃ ur, p.readUnordered b = (graph (w.newTimes.filter fun t => a < t ∧ t ≤ b) (newestValue w.chunks f),
          { p with ur := ur }) ∧
      ur.At w.chunks (update (posOf w done) f b) w.upper ∧ ur.OnColumn w.chunks f b ∧
      ur.times = w.newTimes := by
  have hsorted : p.ur.times.Pairwise (· < ·) := h.times_eq ▸ w.pairwise_newTimes
  have hcover : ∀ c ∈ w.chunks, ∀ t ∈ c.times, a < t → t ≤ b → t ∈ p.ur.times := by
    intro c hc t ht h1 h2
    rw [h.times_eq, w.mem_newTimes]
    exact ⟨⟨c, hc, ht⟩, hla.trans_lt h1, h2.trans hb⟩
  unfold MergePerformer.readUnordered
  split_ifs with hno
  · have habs := h.absent hno
    rw [UnorderedReader.readTimes_spec hsorted hab h.onColumn.ofs_eq]
    refine ⟨{ p.ur with ofs := countLe p.ur.times b }, ?_, h.at_of_absent habs hla hab hb,
      ⟨h.onColumn.readers, rfl⟩, h.times_eq⟩
    · have hnull : graph (p.ur.times.filter fun t => a < t ∧ t ≤ b) (fun _ => none) =
          graph (w.newTimes.filter fun t => a < t ∧ t ≤ b) (newestValue w.chunks f) := by
        rw [h.times_eq]
        refine graph_congr fun t ht => ?_
        simp only [mem_filter, decide_eq_true_eq] at ht
        exact (w.newestValue_of_absent habs ⟨hla.trans_lt ht.2.1, ht.2.2.trans hb⟩).symm
      simp only [hnull]

  · have hpos : update (posOf w done) f a f = a := update_self _ _ _
    obtain ⟨hread, hat, hon, htimes⟩ := h.readers.read w.chunks_wf hsorted
      (hpos.trans_le hab) (hpos.symm ▸ h.onColumn) (by rw [hpos]; exact hcover)
    refine ⟨(p.ur.read b).2, ?_, ?_, hon, htimes.trans h.times_eq⟩
    · rw [hpos, h.times_eq] at hread
      rw [← hread]
    · rwa [update_idem] at hat

omit [LinearOrder F] in
/-- `merge` passes the merged column to the writer, also when there is nothing to merge. -/
theorem merge_eq_write (hlen : col.length = ts.length) (unordered : TimedCol V) (lastSeg : Bool) :
    p.merge limit col ts unordered lastSeg = p.write limit ((mergeCol (ts.zip col) unordered).map Prod.snd)
        ((mergeCol (ts.zip col) unordered).map Prod.fst) lastSeg := by
  unfold MergePerformer.merge
  split_ifs with h
  · obtain rfl := length_eq_zero_iff.mp h
    rw [mergeCol_nil_right, map_snd_zip hlen.le, map_fst_zip hlen.ge]
  · rfl

/-- The state after the part of the column up to `b` has been passed to the writer. -/
theorem InColumn.after_write (h : InColumn w done f a p) (hab : a ≤ b) (lastSeg : Bool) {ur : UnorderedReader F V}
    (hat : ur.At w.chunks (update (posOf w done) f b) w.upper) (hon : ur.OnColumn w.chunks f b)
    (htimes : ur.times = w.newTimes) {z : TimedCol V}
    (hz : z = graph (w.allTimes.filter fun t => a < t ∧ t ≤ b) (w.cell f)) :
    ∃ p', write w.limit { p with ur := ur } (z.map Prod.snd) (z.map Prod.fst) lastSeg = some p' ∧
      p'.unorderedSchemas = p.unorderedSchemas ∧ p'.sid = p.sid ∧
      (lastSeg = true → b = w.upper → Ready w (done ++ [f]) p') ∧
      (lastSeg = false → InColumn w done f b p') := by
  subst hz
  obtain ⟨segs, hsw, hcw⟩ := h.writer
  have hspec := write_spec (p := { p with ur := ur }) w.limit_whole hsw hcw
    (graph (w.allTimes.filter fun t => a < t ∧ t ≤ b) (w.cell f)) lastSeg
  rw [column_split f hab] at hspec
  obtain ⟨cw, sw, hwrite, hafter⟩ := hspec
  refine ⟨_, hwrite, rfl, rfl, ?_, ?_⟩
  · rintro rfl rfl
    obtain ⟨rfl, rfl⟩ := hafter
    refine ⟨⟨h.lastSeries_eq, h.noSeries, h.mergedTimes_eq, htimes⟩, rfl, ?_, ?_⟩
    · rw [column_eq_filter, map_append]
      rfl
    · rwa [update_posOf] at hat
  · rintro rfl
    exact ⟨⟨h.lastSeries_eq, h.noSeries, h.mergedTimes_eq, htimes⟩, hafter, hat, hon, h.absent⟩

/-- **One segment**: `handle` passes the part of the column in the time range of the segment to the
writer. -/
theorem InColumn.handle (h : InColumn w done f a p) (hla : w.lower ≤ a) (hab : a ≤ b) (hb : b ≤ w.upper) (hne : ts ≠ [])
    (lastSeg : Bool) (hbound : b = if w.lastSeries && lastSeg then maxInt64 else ts.getLast hne)
    (hts : ts = w.chunk.times.filter fun t => a < t ∧ t ≤ b) (hlen : col.length = ts.length)
    (hcol : ts.zip col = graph ts (w.chunk.value f)) :
    ∃ p', p.handle w.limit col ts lastSeg = some p' ∧ p'.unorderedSchemas = p.unorderedSchemas ∧ p'.sid = p.sid ∧
      (lastSeg = true → b = w.upper → Ready w (done ++ [f]) p') ∧
      (lastSeg = false → InColumn w done f b p') := by
  have hmerge := w.merge_segment (f := f) hla hb hts
  unfold MergePerformer.handle
  by_cases hno : p.noUnorderedSeries = true
  · rw [if_pos hno]
    -- no out-of-order row in the window of the chunk, so none in this segment either
    have hnil : w.newTimes = [] := h.noSeries.mp hno
    rw [hnil, filter_nil, graph_nil, mergeCol_nil_right, ← hcol] at hmerge
    have habs : w.Absent f := fun c hc _ t ht hwin => by
      simpa [hnil] using w.mem_newTimes.mpr ⟨⟨c, hc, ht⟩, hwin⟩
    have hon : p.ur.OnColumn w.chunks f b := by
      refine ⟨h.onColumn.readers, h.onColumn.ofs_eq.trans ?_⟩
      rw [h.times_eq, hnil]
      rfl
    have := h.after_write hab lastSeg (h.at_of_absent habs hla hab hb) hon h.times_eq hmerge
    rwa [map_snd_zip hlen.le, map_fst_zip hlen.ge] at this
  · rw [if_neg hno, getLast?_eq_some_getLast hne]
    have hmax : (if (p.lastSeries && lastSeg) = true then maxInt64 else ts.getLast hne) = b := by
      rw [h.lastSeries_eq, hbound]
    simp only [hmax]
    obtain ⟨ur, hread, hat, hon, htimes⟩ := h.readUnordered hla hab hb
    rw [hread]
    simp only [merge_eq_write hlen, hcol, hmerge]
    exact h.after_write hab lastSeg hat hon htimes rfl

/-- The times of a segment are those of the chunk between the bounds around it. -/
theorem filter_segment {pre post : List ℤ} (hsplit : w.chunk.times = pre ++ (ts ++ post)) (hpre : ∀ t ∈ pre, t ≤ a)
    (hts : ∀ t ∈ ts, a < t ∧ t ≤ b) (hpost : ∀ t ∈ post, b < t) : ts = w.chunk.times.filter fun t => a < t ∧ t ≤ b := by
  rw [hsplit, filter_append, filter_append]
  have h1 : pre.filter (fun t => a < t ∧ t ≤ b) = [] := filter_eq_nil_iff.mpr fun t ht => by simp [(hpre t ht).not_gt]
  have h2 : ts.filter (fun t => a < t ∧ t ≤ b) = ts := filter_eq_self.mpr fun t ht => by simpa using hts t ht
  have h3 : post.filter (fun t => a < t ∧ t ≤ b) = [] := filter_eq_nil_iff.mpr fun t ht => by simp [(hpost t ht).not_ge]
  rw [h1, h2, h3, append_nil, nil_append]

theorem le_getLast {l : List ℤ} (hl : l.Pairwise (· < ·)) (hne : l ≠ []) {t : ℤ} (ht : t ∈ l) : t ≤ l.getLast hne :=
  le_getLast? hl (getLast?_eq_some_getLast hne) ht

/-- **An ordered column**, segment by segment: `tsegs` are the times of the segments to come, after
those of `pre`. -/
theorem walkSegment_ready : ∀ (segs : List (ColVal V)) (tsegs : List (List ℤ)) (pre : List ℤ) (a : ℤ)
    (p : MergePerformer F V), segs ≠ [] → segs.map length = tsegs.map length →
    (∀ s ∈ tsegs, s ≠ []) → w.chunk.times = pre ++ tsegs.flatten → (∀ t ∈ pre, t ≤ a) →
    (∀ t ∈ tsegs.flatten, a < t) → w.lower ≤ a →
    tsegs.flatten.zip segs.flatten = graph tsegs.flatten (w.chunk.value f) →
    InColumn w done f a p →
    ∃ p', walkSegment w.limit segs tsegs.flatten p = some p' ∧
      p'.unorderedSchemas = p.unorderedSchemas ∧ p'.sid = p.sid ∧ Ready w (done ++ [f]) p' := by
  intro segs
  induction segs with
  | nil => intro _ _ _ _ h; exact absurd rfl h
  | cons col segs ih =>
    intro tsegs pre a p _ hal hne hsplit hpre hafter hla hzip hin
    cases tsegs with
    | nil => simp at hal
    | cons ts tsegs =>
      rw [map_cons, map_cons, cons.injEq] at hal
      obtain ⟨hlen, hal⟩ := hal
      have hts : ts ≠ [] := hne ts (by simp)
      rw [flatten_cons] at hsplit hafter
      rw [flatten_cons, flatten_cons, zip_append hlen.symm, graph_append] at hzip
      obtain ⟨hcol, hrest⟩ := append_inj hzip (by
        rw [length_zip, length_graph, hlen, min_self])
      have hasc : (ts ++ tsegs.flatten).Pairwise (· < ·) := (pairwise_append.mp (hsplit ▸ w.chunk_wf.ascending)).2.1
      have htsasc := (pairwise_append.mp hasc).1
      have hlast : ∀ t ∈ tsegs.flatten, ts.getLast hts < t := fun t ht =>
        (pairwise_append.mp hasc).2.2 _ (getLast_mem hts) t ht
      have hmem : ∀ t ∈ ts, t ∈ w.chunk.times := by
        intro t ht
        rw [hsplit]
        simp [ht]
      have hatake : (ts ++ tsegs.flatten).take col.length = ts := by
        rw [hlen, take_left]
      have hadrop : (ts ++ tsegs.flatten).drop col.length = tsegs.flatten := by
        rw [hlen, drop_left]
      have hlong : ¬ (ts ++ tsegs.flatten).length < col.length := by
        rw [length_append]
        omega
      have halt : a < ts.getLast hts := hafter _ (by simp)
      rw [flatten_cons, walkSegment, if_neg hlong, hatake, hadrop]
      cases segs with
      | nil =>
        -- the last segment: rows up to the upper bound of the window
        obtain rfl : tsegs = [] := by simpa using hal.symm
        have hend : ts.getLast hts = w.lastTime := by
          refine le_antisymm (w.le_lastTime (hmem _ (getLast_mem hts))) ?_
          have hl := w.lastTime_mem
          rw [hsplit] at hl
          simp only [flatten_nil, append_nil, mem_append] at hl
          rcases hl with hl | hl
          · exact (hpre _ hl).trans halt.le
          · exact le_getLast htsasc hts hl
        have hab : a ≤ w.upper := halt.le.trans (hend.trans_le w.lastTime_le_upper)
        have hbound : w.upper = if w.lastSeries && true then maxInt64 else ts.getLast hts := by
          rw [hend, Bool.and_true]
          rfl
        have hfilter := filter_segment hsplit hpre
          (fun t ht => ⟨hafter t (by simp [ht]), w.le_upper (hmem t ht)⟩) (by simp)
        obtain ⟨p', hhandle, hschemas, hsid, hready, -⟩ := hin.handle hla hab le_rfl hts true hbound hfilter hlen hcol
        refine ⟨p', ?_, hschemas, hsid, hready rfl rfl⟩
        rw [isEmpty_nil, hhandle]
        rfl
      | cons col' segs =>
        have hb : ts.getLast hts ≤ w.upper := w.le_upper (hmem _ (getLast_mem hts))
        have hfilter := filter_segment hsplit hpre
          (fun t ht => ⟨hafter t (by simp [ht]), le_getLast htsasc hts ht⟩) hlast
        obtain ⟨p', hhandle, hschemas, hsid, -, hin'⟩ := hin.handle hla halt.le hb hts false (by simp) hfilter hlen hcol
        obtain ⟨p'', hwalk, hschemas', hsid', hready⟩ := ih tsegs (pre ++ ts) (ts.getLast hts) p'
          (by simp) hal (forall_mem_cons.mp hne).2
          (by rw [hsplit, append_assoc])
          (fun t ht => (mem_append.mp ht).elim (fun h => (hpre t h).trans halt.le) (le_getLast htsasc hts))
          hlast (hla.trans halt.le) hrest (hin' rfl)
        refine ⟨p'', ?_, hschemas'.trans hschemas, hsid'.trans hsid, hready⟩
        rw [isEmpty_cons, hhandle]
        exact hwalk

end MergePerformer

end GeminiTS
