import GeminiTS.Immutable.PerformerSpec

/-!
# MergeColumns — all columns of a series in one file

The columns of an ordered chunk and those of the out-of-order chunks are written in the order of
their names, each one as a whole.
-/

namespace GeminiTS

open Lib List

variable {F V : Type*} [LinearOrder F]

namespace MergePerformer

variable {w : MergeWindow F V} {done : List F} {f : F} {p : MergePerformer F V}

theorem posOf_of_notMem (h : f ∉ done) : posOf w done f = w.lower := if_neg h

theorem zip_replicate_none (ts : List ℤ) : ts.zip (replicate ts.length (none : Option V)) = graph ts fun _ => none := by
  induction ts with
  | nil => rfl
  | cons t ts ih => rw [length_cons, replicate_succ, zip_cons_cons, ih, graph_cons]

/-- **A column of out-of-order chunks only.** -/
theorem Ready.writeUnorderedCol (h : Ready w done p) (hf : f ∉ done) (hval : ∀ t, w.chunk.value f t = none) :
    ∃ p', p.writeUnorderedCol w.limit f = some p' ∧
      p'.unorderedSchemas = p.unorderedSchemas ∧ p'.sid = p.sid ∧ Ready w (done ++ [f]) p' := by
  obtain ⟨last, hlast, hmax⟩ : ∃ last, p.mergedTimes.getLast? = some last ∧
      (if p.lastSeries = true then maxInt64 else last) = w.upper := by
    rw [h.mergedTimes_eq, h.lastSeries_eq]
    cases hls : w.lastSeries with
    | true =>
      refine ⟨_, getLast?_eq_some_getLast w.allTimes_ne, ?_⟩
      simp [MergeWindow.upper, hls]
    | false => exact ⟨_, w.getLast?_allTimes hls, by simp⟩
  have hsorted : p.ur.times.Pairwise (· < ·) := h.times_eq ▸ w.pairwise_newTimes
  have hlower : ∀ t ∈ p.ur.times, w.lower < t := by
    rw [h.times_eq]
    exact fun t ht => (w.mem_newTimes.mp ht).2.1
  obtain ⟨hat, hon⟩ := h.readers.changeColumn hsorted hlower
  have hpos := posOf_of_notMem (w := w) hf
  obtain ⟨hread, hat', -, htimes⟩ := hat.read w.chunks_wf hsorted (hpos.trans_le w.lower_le_upper) (hpos.symm ▸ hon) (by
      intro c hc t ht h1 h2
      show t ∈ p.ur.times
      rw [h.times_eq, w.mem_newTimes]
      exact ⟨⟨c, hc, ht⟩, hpos ▸ h1, h2⟩)
  have hwin : (p.ur.changeColumn f).times.filter (fun t => posOf w done f < t ∧ t ≤ w.upper) = w.newTimes := by
    show p.ur.times.filter _ = _
    rw [h.times_eq, filter_eq_self]
    intro t ht
    rw [hpos]
    simpa using (w.mem_newTimes.mp ht).2
  rw [hwin] at hread
  rw [update_posOf] at hat'
  have hcol : mergeCol (p.mergedTimes.zip (replicate p.mergedTimes.length none))
      ((p.ur.changeColumn f).read w.upper).1 = w.column f := by
    rw [zip_replicate_none, hread, h.mergedTimes_eq, w.merge_nil hval]
  have hsw : p.sw.appendColumn f = ⟨done.map (written w) ++ [(f, [])], []⟩ := by
    rw [h.sw_eq]
    rfl
  have hcw : p.cw.Holds w.limit [] [] := by
    rw [h.cw_eq]
    exact ColumnWriter.holds_init w.limit_whole.1
  unfold MergePerformer.writeUnorderedCol
  simp only [hlast, hmax, merge_eq_write length_replicate, hcol]
  obtain ⟨cw, sw, hwrite, hcw', hsw'⟩ := write_spec
    (p := { p with ur := ((p.ur.changeColumn f).read w.upper).2, sw := p.sw.appendColumn f })
    w.limit_whole hsw hcw (w.column f) true
  refine ⟨_, hwrite, rfl, rfl, ⟨h.lastSeries_eq, h.noSeries, h.mergedTimes_eq, htimes.trans h.times_eq⟩, hcw', ?_, hat'⟩
  rw [hsw', map_append]
  rfl

/-- **Columns of out-of-order chunks only**, one after the other. -/
theorem writeUnorderedCols_ready : ∀ (schemas done : List F) (p : MergePerformer F V),
    Ready w done p → schemas.Pairwise (· < ·) → (∀ g ∈ schemas, g ∉ done) →
    (∀ g ∈ schemas, ∀ t, w.chunk.value g t = none) →
    ∃ p', writeUnorderedCols w.limit schemas p = some p' ∧ p'.sid = p.sid ∧ Ready w (done ++ schemas) p' := by
  intro schemas
  induction schemas with
  | nil =>
    intro done p h _ _ _
    exact ⟨p, rfl, rfl, by simpa using h⟩
  | cons u schemas ih =>
    intro done p h hsorted hnew hval
    rw [pairwise_cons] at hsorted
    obtain ⟨p', hwrite, -, hsid, hready⟩ := h.writeUnorderedCol (hnew u (by simp)) (hval u (by simp))
    obtain ⟨p'', hrest, hsid', hready'⟩ := ih (done ++ [u]) p' hready hsorted.2 (fun g hg hmem => by
        rcases mem_append.mp hmem with hmem | hmem
        · exact hnew g (mem_cons_of_mem _ hg) hmem
        · exact absurd (hsorted.1 g hg) (by rw [mem_singleton.mp hmem]; exact lt_irrefl u))
      (forall_mem_cons.mp hval).2
    refine ⟨p'', ?_, hsid'.trans hsid, by simpa using hready'⟩
    rw [writeUnorderedCols, hwrite, Option.bind_some, hrest]

variable {schemas : List F}

/-- The loop of `columnChanged` writes the out-of-order columns in front of `f`. -/
theorem writeSmaller_eq (limit : ℕ) (f : F) (hsorted : schemas.Pairwise (· < ·)) (p : MergePerformer F V) :
    writeSmaller limit f schemas p = (writeUnorderedCols limit (schemas.filter (· < f)) p).map
      fun p' => (schemas.filter (f < ·), decide (f ∉ schemas), p') := by
  induction schemas generalizing p with
  | nil => rfl
  | cons u schemas ih =>
    rw [pairwise_cons] at hsorted
    rw [writeSmaller]
    split_ifs with hlt heq
    · rw [filter_cons_of_neg (by simpa using hlt.le), filter_cons_of_pos (by simpa using hlt),
        writeUnorderedCols, Option.map_bind]
      refine congrArg _ (funext fun p' => (ih hsorted.2 p').trans ?_)
      simp [hlt.ne']
    all_goals
      have hfu : f ≤ u := not_lt.mp hlt
      have hsmaller : (u :: schemas).filter (· < f) = [] := by
        rw [filter_eq_nil_iff]
        intro g hg
        rcases mem_cons.mp hg with rfl | hg
        · simpa using hfu
        · simpa using hfu.trans (hsorted.1 g hg).le
      have hgreater : schemas.filter (f < ·) = schemas := by
        rw [filter_eq_self]
        exact fun g hg => by simpa using hfu.trans_lt (hsorted.1 g hg)
      rw [hsmaller, filter_cons, hgreater]
    · simp [heq, writeUnorderedCols]
    · have hnot : f ∉ schemas := fun hmem => hfu.not_gt (hsorted.1 f hmem)
      simp [lt_of_le_of_ne hfu (Ne.symm heq), Ne.symm heq, hnot, writeUnorderedCols]

/-- The columns written, the out-of-order columns still to write and the ordered columns still to
come, in the order of their names. -/
structure Pending (w : MergeWindow F V) (done schemas names : List F) : Prop where
  done_sorted : done.Pairwise (· < ·)
  schemas_sorted : schemas.Pairwise (· < ·)
  names_sorted : names.Pairwise (· < ·)
  done_lt_schemas : ∀ d ∈ done, ∀ g ∈ schemas, d < g
  done_lt_names : ∀ d ∈ done, ∀ g ∈ names, d < g
  noSeries : w.newTimes = [] → schemas = []
  covers_schemas : w.newTimes ≠ [] → ∀ g, w.InSchemas g → g ∈ done ∨ g ∈ schemas
  covers_names : ∀ g ∈ w.chunk.cols.map Prod.fst, g ∈ done ∨ g ∈ names

namespace Pending

variable {schemas names : List F}

/-- An out-of-order column in front of all ordered ones is no column of the chunk. -/
theorem value_eq_none (h : Pending w done schemas names) {g : F} (hg : g ∈ schemas)
    (hlt : ∀ n ∈ names, g < n) (t : ℤ) : w.chunk.value g t = none := by
  refine Chunk.value_of_lookup_none (lookup_eq_none.mpr fun hmem => ?_) t
  rcases h.covers_names g hmem with hd | hn
  · exact lt_irrefl g (h.done_lt_schemas g hd g hg)
  · exact lt_irrefl g (hlt g hn)

theorem absent (h : Pending w done schemas names) {g : F} (hs : g ∉ schemas) (hd : g ∉ done) : w.Absent g := by
  by_cases hnil : w.newTimes = []
  · intro c hc _ t ht hwin
    have hmem : t ∈ w.newTimes := w.mem_newTimes.mpr ⟨⟨c, hc, ht⟩, hwin⟩
    rw [hnil] at hmem
    simp at hmem
  · refine w.absent_of_not_inSchemas fun hin => ?_
    rcases h.covers_schemas hnil g hin with h | h
    · exact hd h
    · exact hs h

/-- The next ordered column comes after the out-of-order columns in front of it. -/
theorem step (h : Pending w done schemas (f :: names)) :
    Pending w (done ++ schemas.filter (· < f) ++ [f]) (schemas.filter (f < ·)) names where
  done_sorted := by
    rw [pairwise_append, pairwise_append]
    refine ⟨⟨h.done_sorted, h.schemas_sorted.filter _, fun d hd g hg =>
      h.done_lt_schemas d hd g (mem_filter.mp hg).1⟩, pairwise_singleton _ _, ?_⟩
    intro d hd g hg
    rw [mem_singleton.mp hg]
    rcases mem_append.mp hd with hd | hd
    · exact h.done_lt_names d hd f (by simp)
    · simpa using (mem_filter.mp hd).2
  schemas_sorted := h.schemas_sorted.filter _
  names_sorted := (pairwise_cons.mp h.names_sorted).2
  done_lt_schemas := by
    intro d hd g hg
    simp only [mem_append, mem_filter, mem_singleton, decide_eq_true_eq] at hd hg
    rcases hd with (hd | hd) | rfl
    · exact h.done_lt_schemas d hd g hg.1
    · exact hd.2.trans hg.2
    · exact hg.2
  done_lt_names := by
    intro d hd g hg
    have hfg := (pairwise_cons.mp h.names_sorted).1 g hg
    simp only [mem_append, mem_filter, mem_singleton, decide_eq_true_eq] at hd
    rcases hd with (hd | hd) | rfl
    · exact h.done_lt_names d hd g (mem_cons_of_mem _ hg)
    · exact hd.2.trans hfg
    · exact hfg
  noSeries := fun hnil => by rw [h.noSeries hnil, filter_nil]
  covers_schemas := by
    intro hne g hin
    simp only [mem_append, mem_filter, mem_singleton, decide_eq_true_eq]
    rcases h.covers_schemas hne g hin with hd | hs
    · exact .inl (.inl (.inl hd))
    · rcases lt_trichotomy g f with hlt | heq | hgt
      · exact .inl (.inl (.inr ⟨hs, hlt⟩))
      · exact .inl (.inr heq)
      · exact .inr ⟨hs, hgt⟩
  covers_names := by
    intro g hg
    simp only [mem_append, mem_singleton]
    rcases h.covers_names g hg with hd | hn
    · exact .inl (.inl (.inl hd))
    · rcases mem_cons.mp hn with heq | hn
      · exact .inl (.inr heq)
      · exact .inr hn

end Pending

theorem Ready.columnChanged {names : List F} (h : Ready w done p) (hs : p.unorderedSchemas = schemas)
    (hp : Pending w done schemas (f :: names)) :
    ∃ p', p.columnChanged w.limit f = some p' ∧ p'.sid = p.sid ∧ p'.unorderedSchemas = schemas.filter (f < ·) ∧
      InColumn w (done ++ schemas.filter (· < f)) f w.lower p' := by
  have hnd : f ∉ done := fun hf => lt_irrefl f (hp.done_lt_names f hf f (by simp))
  have hnd' : f ∉ done ++ schemas.filter (· < f) := by
    simp [hnd]
  -- entering the column, from the state in which the columns in front of it are written
  have enter : ∀ (q : MergePerformer F V) no left,
      Ready w (done ++ schemas.filter (· < f)) q → (no = true → w.Absent f) →
      InColumn w (done ++ schemas.filter (· < f)) f w.lower { q with
        noUnorderedColumn := no, unorderedSchemas := left
        ur := q.ur.changeColumn f, sw := q.sw.appendColumn f } := by
    intro q no left hq habs
    have hsorted : q.ur.times.Pairwise (· < ·) := hq.times_eq ▸ w.pairwise_newTimes
    obtain ⟨hat, hon⟩ := hq.readers.changeColumn hsorted (by
      rw [hq.times_eq]
      exact fun t ht => (w.mem_newTimes.mp ht).2.1)
    refine ⟨⟨hq.lastSeries_eq, hq.noSeries, hq.mergedTimes_eq, hq.times_eq⟩, ⟨[], ?_, ?_⟩, ?_, hon, habs⟩
    · show q.sw.appendColumn f = _
      rw [hq.sw_eq]
      rfl
    · have hnil : w.allTimes.filter (· ≤ w.lower) = [] := by
        rw [filter_eq_nil_iff]
        intro t ht
        simpa using (w.window_of_mem_allTimes ht).1
      show q.cw.Holds w.limit _ []
      rw [hnil, hq.cw_eq]
      exact ColumnWriter.holds_init w.limit_whole.1
    · have hself : Function.update (posOf w (done ++ schemas.filter (· < f))) f w.lower =
          posOf w (done ++ schemas.filter (· < f)) := by
        rw [Function.update_eq_self_iff]
        exact (posOf_of_notMem hnd').symm
      rw [hself]
      exact hat
  unfold MergePerformer.columnChanged
  by_cases hno : (p.noUnorderedSeries || p.unorderedSchemas.isEmpty) = true
  · have hnil : schemas = [] := by
      rw [Bool.or_eq_true, hs, List.isEmpty_iff] at hno
      rcases hno with hno | hno
      · exact hp.noSeries (h.noSeries.mp hno)
      · exact hno
    rw [if_pos hno]
    subst hnil
    refine ⟨_, rfl, rfl, hs, ?_⟩
    have := enter p true p.unorderedSchemas (by simpa using h) fun _ => hp.absent (by simp) hnd
    exact this
  · obtain ⟨q, hsmall, hsid, hq⟩ := writeUnorderedCols_ready _ done p h (hp.schemas_sorted.filter (· < f))
      (fun g hg hd => lt_irrefl g (hp.done_lt_schemas g hd g (mem_filter.mp hg).1))
      (fun g hg => hp.value_eq_none (mem_filter.mp hg).1 fun n hn => by
        have hlt : g < f := by simpa using (mem_filter.mp hg).2
        rcases mem_cons.mp hn with rfl | hn
        · exact hlt
        · exact hlt.trans ((pairwise_cons.mp hp.names_sorted).1 n hn))
    rw [if_neg hno, hs, writeSmaller_eq _ _ hp.schemas_sorted, hsmall]
    exact ⟨_, rfl, hsid, rfl, enter q _ _ hq fun hn => hp.absent (of_decide_eq_true hn) hnd⟩

/-- **The columns of the ordered chunk**, with the out-of-order columns in between. -/
theorem walkColumn_ready : ∀ (cols : List (F × List (ColVal V))) (done schemas : List F)
    (p : MergePerformer F V), (∀ q ∈ cols, q ∈ w.chunk.cols) → Ready w done p →
    p.unorderedSchemas = schemas → Pending w done schemas (cols.map Prod.fst) →
    ∃ p' done' schemas', walkColumn w.limit w.chunk.times cols p = some p' ∧ p'.sid = p.sid ∧
      Ready w done' p' ∧ p'.unorderedSchemas = schemas' ∧ Pending w done' schemas' [] := by
  intro cols
  induction cols with
  | nil =>
    intro done schemas p _ h hs hp
    exact ⟨p, done, schemas, rfl, rfl, h, hs, hp⟩
  | cons q cols ih =>
    obtain ⟨f, segs⟩ := q
    intro done schemas p hsub h hs hp
    obtain ⟨p1, hchanged, hsid1, hs1, hin⟩ := h.columnChanged hs hp
    have hmem : (f, segs) ∈ w.chunk.cols := hsub _ (by simp)
    have hnodup : (w.chunk.cols.map Prod.fst).Nodup := w.chunk_wf.names.imp fun hab => hab.ne
    have hlookup := lookup_of_mem_of_nodup hnodup hmem
    have hal := w.chunk_wf.aligned _ hmem
    have hne : segs ≠ [] := by
      rintro rfl
      exact w.chunk_wf.ne (by simpa using hal.symm)
    have hzip : w.chunk.times.zip segs.flatten = graph w.chunk.times (w.chunk.value f) := by
      rw [zip_eq_graph w.chunk_wf.nodup (w.chunk_wf.length_flatten hmem)]
      exact graph_congr fun t _ => (Chunk.value_of_lookup hlookup t).symm
    obtain ⟨p2, hwalk, hs2, hsid2, hready⟩ := walkSegment_ready segs w.chunk.timeSegs [] w.lower p1
      hne hal w.chunk_wf.seg_ne rfl (by simp) w.lower_lt le_rfl hzip hin
    obtain ⟨p3, done', schemas', hrest, hsid3, h3, hs3, hp3⟩ := ih _ _ p2
      (forall_mem_cons.mp hsub).2 hready (hs2.trans hs1) hp.step
    refine ⟨p3, done', schemas', ?_, hsid3.trans (hsid2.trans hsid1), h3, hs3, hp3⟩
    rw [walkColumn, hchanged, Option.bind_some]
    have hwalk' : walkSegment w.limit segs w.chunk.times p1 = some p2 := hwalk
    rw [hwalk', Option.bind_some, hrest]

/-- The end of the series in this file: all columns are written, in order. -/
theorem Ready.writeRemainCol (h : Ready w done p) (hs : p.unorderedSchemas = schemas) (hp : Pending w done schemas []) :
    ∃ p', p.writeRemainCol w.limit = some p' ∧ p'.sid = p.sid ∧ Ready w (done ++ schemas) p' ∧
      Pending w (done ++ schemas) [] [] := by
  obtain ⟨p', hwrite, hsid, hready⟩ := writeUnorderedCols_ready schemas done p h hp.schemas_sorted
    (fun g hg hd => lt_irrefl g (hp.done_lt_schemas g hd g hg))
    (fun g hg => hp.value_eq_none hg (by simp))
  refine ⟨{ p' with unorderedSchemas := [] }, ?_, hsid, ?_, ?_⟩
  · rw [MergePerformer.writeRemainCol, hs, hwrite]
    rfl
  · exact ⟨⟨hready.lastSeries_eq, hready.noSeries, hready.mergedTimes_eq, hready.times_eq⟩,
      hready.cw_eq, hready.sw_eq, hready.readers⟩
  · refine ⟨?_, .nil, .nil, by simp, by simp, fun _ => rfl, ?_, ?_⟩
    · rw [pairwise_append]
      exact ⟨hp.done_sorted, hp.schemas_sorted, hp.done_lt_schemas⟩
    · intro hne g hin
      exact .inl (mem_append.mpr (hp.covers_schemas hne g hin))
    · intro g hg
      rcases hp.covers_names g hg with h | h
      · exact .inl (mem_append_left _ h)
      · simp at h

end MergePerformer

end GeminiTS
