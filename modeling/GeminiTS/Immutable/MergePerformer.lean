import GeminiTS.Immutable.UnorderedReader

/-!
# MergePerformer — merging out-of-order files into ordered files

`mergePerformer` (`engine/immutable/merge_performer.go`) rewrites the chunk of a series in one
ordered file together with the out-of-order rows up to its last time; the last ordered file of the
series takes all that is left. A `ColumnIterator` drives it column by column and segment by
segment; columns that exist in out-of-order files only are written in between, in the order of
their names.

The functions return `none` where the source panics or returns an error.
-/

namespace GeminiTS

open Lib List

variable {V : Type*}

/-- A segment of a column with its times, as passed to `WriteData`. -/
abbrev Segment (V : Type*) := ColVal V × List ℤ

/-- The rows that wait for more. `bitMapOffset` is where the bits of the times begin in their bitmap: the part that is
kept of a column that was split keeps the bytes of its bits. -/
structure ColumnWriter (V : Type*) where
  remain : ColVal V
  remainTime : List ℤ
  bitMapOffset : ℕ

namespace ColumnWriter

def init : ColumnWriter V := ⟨[], [], 0⟩

/-- The last part of `write`: full segments are written, a shorter one is kept. -/
def writeSplit (limit : ℕ) : ℕ → List (ColVal V) → List (List ℤ) → List (Segment V) × ColumnWriter V
  | start, col :: cols, times :: timeCols =>
    if col.length < limit then ([], ⟨col, times, start % 8⟩)
    else
      let (segs, cw) := writeSplit limit (start + limit) cols timeCols
      ((col, times) :: segs, cw)
  | _, _, _ => ([], init)

/-- The segments written by one call and the writer left; `none` is a panic, or the error of a column and its
times that differ in length. -/
def write (limit : ℕ) (cw : ColumnWriter V) (col : ColVal V) (times : List ℤ) :
    Option (List (Segment V) × ColumnWriter V) :=
  let remainTime := cw.remainTime ++ times
  -- `AppendTimes` makes the bitmap as long as the rows need without the offset, and clears the bits behind the rows
  -- with it
  if times ≠ [] ∧ cw.bitMapOffset ≠ 0 ∧ remainTime.length % 8 ≠ 0 then none
  -- fast path
  else if cw.remain.length = 0 ∧ col.length = limit then some ([(col, remainTime)], ⟨cw.remain, [], 0⟩)
  else
    let remain := cw.remain ++ col
    if remain.length ≠ remainTime.length then none
    else if remain.length < limit then some ([], ⟨remain, remainTime, cw.bitMapOffset⟩)
    else if remain.length = limit then some ([(remain, remainTime)], init)
    -- the bitmap is a byte short: whether it can be split depends on its capacity
    else if cw.bitMapOffset ≠ 0 then none
    else some (writeSplit limit 0 (splitEvery limit remain) (splitEvery limit remainTime))

/-- Write what is left. -/
def flush (cw : ColumnWriter V) : List (Segment V) × ColumnWriter V :=
  if cw.remain.length = 0 then ([], cw) else ([(cw.remain, cw.remainTime)], init)

/-- The time column at once. -/
def writeAll (limit : ℕ) (times : List ℤ) : List (List ℤ) :=
  if times.length ≤ limit then [times] else splitEvery limit times

/-! ### What is written of a stream -/

/-- The segment of a part of the stream. -/
def segment (z : TimedCol V) : Segment V := (z.map Prod.snd, z.map Prod.fst)

/-- The parts of a column that is split begin at whole bytes of its bitmap, or none of them is kept. -/
def Whole (limit : ℕ) : Prop := 0 < limit ∧ (8 ∣ limit ∨ limit = 1)

/-- Of the stream, `segs` have been written, all full, and the writer holds the rest. -/
structure Holds (limit : ℕ) (stream : TimedCol V) (segs : List (Segment V)) (cw : ColumnWriter V) : Prop where
  split : ∃ (full : List (TimedCol V)) (rest : TimedCol V), (∀ z ∈ full, z.length = limit) ∧
    rest.length < limit ∧ stream = full.flatten ++ rest ∧ segs = full.map segment ∧
    cw = ⟨rest.map Prod.snd, rest.map Prod.fst, 0⟩

variable {limit : ℕ}

theorem holds_init (hl : 0 < limit) : Holds limit [] [] (init : ColumnWriter V) := ⟨[], [], by simp, hl, rfl, rfl, rfl⟩

theorem exists_full (hl : 0 < limit) (z : TimedCol V) :
    ∃ (full : List (TimedCol V)) (rest : TimedCol V), (∀ p ∈ full, p.length = limit) ∧
      rest.length < limit ∧ z = full.flatten ++ rest := by
  induction h : z.length using Nat.strong_induction_on generalizing z with
  | h n ih =>
    by_cases hlt : z.length < limit
    · exact ⟨[], z, by simp, hlt, rfl⟩
    · obtain ⟨full, rest, hfull, hrest, heq⟩ := ih (z.drop limit).length (by rw [length_drop]; omega) (z.drop limit) rfl
      refine ⟨z.take limit :: full, rest, ?_, hrest, ?_⟩
      · intro p hp
        rcases mem_cons.mp hp with rfl | hp
        · rw [length_take]
          omega
        · exact hfull p hp
      · rw [flatten_cons, append_assoc, ← heq, take_append_drop]

theorem writeSplit_spec (hl : Whole limit) {full : List (TimedCol V)} {rest : TimedCol V}
    (hfull : ∀ z ∈ full, z.length = limit) (hrest : rest.length < limit) {start : ℕ} (hstart : limit ∣ start) :
    writeSplit limit start (splitEvery limit ((full.flatten ++ rest).map Prod.snd))
        (splitEvery limit ((full.flatten ++ rest).map Prod.fst)) =
      (full.map segment, ⟨rest.map Prod.snd, rest.map Prod.fst, 0⟩) := by
  rw [← map_splitEvery, ← map_splitEvery, splitEvery_flatten_append hl.1 hfull]
  induction full generalizing start with
  | nil =>
    by_cases hnil : rest = []
    · subst hnil
      simp [writeSplit, init]
    · have hmod : start % 8 = 0 := by
        rcases hl.2 with h8 | rfl
        · exact Nat.mod_eq_zero_of_dvd (h8.trans hstart)
        · exact absurd (length_eq_zero_iff.mp (Nat.lt_one_iff.mp hrest)) hnil
      rw [splitEvery_of_le hnil hrest.le]
      simp [writeSplit, hrest, hmod]
  | cons z full ih =>
    have hz : ¬ (z.map Prod.snd).length < limit := by
      rw [length_map, hfull z (by simp)]
      exact lt_irrefl limit
    simp only [cons_append, map_cons, writeSplit, if_neg hz]
    rw [ih (fun z' hz' => hfull z' (mem_cons_of_mem _ hz')) (Nat.dvd_add hstart (dvd_refl limit))]
    rfl

variable {stream : TimedCol V} {segs : List (Segment V)} {cw : ColumnWriter V}

/-- **One piece of the stream**: nothing but full segments is written, in the order of the
stream. -/
theorem Holds.write (hl : Whole limit) (h : Holds limit stream segs cw) (z : TimedCol V) :
    ∃ segs' cw', cw.write limit (z.map Prod.snd) (z.map Prod.fst) = some (segs', cw') ∧
      Holds limit (stream ++ z) (segs ++ segs') cw' := by
  obtain ⟨full, rest, hfull, hrest, rfl, rfl, rfl⟩ := h.split
  have hsnd : rest.map Prod.snd ++ z.map Prod.snd = (rest ++ z).map Prod.snd := map_append.symm
  have hfst : rest.map Prod.fst ++ z.map Prod.fst = (rest ++ z).map Prod.fst := map_append.symm
  -- whichever branch is taken, the rows `rest ++ z` are cut into full segments and a rest
  suffices hcut : ∃ (full' : List (TimedCol V)) (rest' : TimedCol V),
      (∀ p ∈ full', p.length = limit) ∧ rest'.length < limit ∧ rest ++ z = full'.flatten ++ rest' ∧
      ColumnWriter.write limit ⟨rest.map Prod.snd, rest.map Prod.fst, 0⟩ (z.map Prod.snd)
        (z.map Prod.fst) = some (full'.map segment, ⟨rest'.map Prod.snd, rest'.map Prod.fst, 0⟩) by
    obtain ⟨full', rest', hfull', hrest', heq, hwrite⟩ := hcut
    refine ⟨_, _, hwrite, full ++ full', rest', ?_, hrest', ?_, ?_, rfl⟩
    · intro p hp
      rcases mem_append.mp hp with hp | hp
      · exact hfull p hp
      · exact hfull' p hp
    · rw [append_assoc, heq, flatten_append, append_assoc]
    · rw [map_append]
  unfold ColumnWriter.write
  simp only [hsnd, hfst, length_map, ne_eq, not_true_eq_false, false_and, and_false, if_false]
  split_ifs with hfast hlt heq
  · have hnil : rest = [] := length_eq_zero_iff.mp hfast.1
    subst hnil
    exact ⟨[z], [], by simpa using hfast.2, hl.1, by simp, rfl⟩
  · exact ⟨[], rest ++ z, by simp, hlt, rfl, rfl⟩
  · exact ⟨[rest ++ z], [], by simpa using heq, hl.1, by simp, rfl⟩
  · obtain ⟨full', rest', hfull', hrest', hz⟩ := exists_full hl.1 (rest ++ z)
    refine ⟨full', rest', hfull', hrest', hz, ?_⟩
    rw [hz, writeSplit_spec hl hfull' hrest' (dvd_zero limit)]

/-- **The end of a column**: its rows have been written cut every `limit` rows. -/
theorem Holds.flush (hl : 0 < limit) (h : Holds limit stream segs cw) :
    segs ++ cw.flush.1 = (splitEvery limit stream).map segment ∧ cw.flush.2 = init := by
  obtain ⟨full, rest, hfull, hrest, rfl, rfl, rfl⟩ := h.split
  rw [splitEvery_flatten_append hl hfull, map_append]
  by_cases hnil : rest = []
  · subst hnil
    simp [ColumnWriter.flush, init]
  · have hlen : (rest.map Prod.snd).length ≠ 0 := by
      simpa using hnil
    rw [splitEvery_of_le hnil hrest.le, ColumnWriter.flush, if_neg hlen]
    exact ⟨rfl, rfl⟩

/-- A piece of one row more than the limit leaves a row whose bit stands at the limit. -/
theorem init_write_long (hl : 1 < limit) {col : ColVal V} {times : List ℤ} (hcol : col.length = limit + 1)
    (htimes : times.length = limit + 1) :
    ∃ segs v t, (init : ColumnWriter V).write limit col times = some (segs, ⟨[v], [t], limit % 8⟩) := by
  obtain ⟨v, hv⟩ := splitEvery_of_length_succ (by omega) hcol
  obtain ⟨t, ht⟩ := splitEvery_of_length_succ (by omega) htimes
  refine ⟨[(col.take limit, times.take limit)], v, t, ?_⟩
  simp [write, init, hcol, htimes, hv, ht, writeSplit, hl]

theorem writeAll_eq (times : List ℤ) (hne : times ≠ []) (limit : ℕ) :
    writeAll limit times = splitEvery limit times := by
  unfold writeAll
  split_ifs with h
  · rw [splitEvery_of_le hne h]
  · rfl

end ColumnWriter

/-! ### The performer -/

variable {F V : Type*} [LinearOrder F]

/-- What is written for the series to one file: its columns with their segments, and the segments
of the time column. -/
structure SeriesOut (F V : Type*) where
  cols : List (F × List (Segment V))
  times : List (List ℤ)

namespace SeriesOut

def empty : SeriesOut F V := ⟨[], []⟩

def appendColumn (ref : F) (o : SeriesOut F V) : SeriesOut F V := { o with cols := o.cols ++ [(ref, [])] }

/-- Segments go to the column appended last. -/
def writeData (segs : List (Segment V)) (o : SeriesOut F V) : SeriesOut F V :=
  match o.cols.getLast? with
  | none => o
  | some (ref, written) => { o with cols := o.cols.dropLast ++ [(ref, written ++ segs)] }

/-- A chunk copied as it is (`WriteOriginal`). -/
def original (c : Chunk F V) : SeriesOut F V := ⟨c.cols.map fun p => (p.1, p.2.zip c.timeSegs), c.timeSegs⟩

/-- The written series as one record. -/
def record (o : SeriesOut F V) : Record F V := ⟨o.cols.map fun p => (p.1, (p.2.map Prod.fst).flatten), o.times.flatten⟩

end SeriesOut

/-- The state of `mergePerformer` for the chunk of one series in one ordered file. -/
structure MergePerformer (F V : Type*) where
  lastSeries : Bool
  sid : ℕ
  noUnorderedSeries : Bool
  noUnorderedColumn : Bool
  unorderedSchemas : List F
  mergedTimes : List ℤ
  cw : ColumnWriter V
  sw : SeriesOut F V
  ur : UnorderedReader F V

namespace MergePerformer

variable (limit : ℕ)

def init (lastSeries : Bool) (sid : ℕ) (ur : UnorderedReader F V) : MergePerformer F V where
  lastSeries := lastSeries
  sid := sid
  noUnorderedSeries := false
  noUnorderedColumn := false
  unorderedSchemas := []
  mergedTimes := []
  cw := ColumnWriter.init
  sw := SeriesOut.empty
  ur := ur

def write (p : MergePerformer F V) (col : ColVal V) (times : List ℤ) (lastSeg : Bool) : Option (MergePerformer F V) :=
  (p.cw.write limit col times).map fun (segs, cw) =>
    let p := { p with cw := cw, sw := p.sw.writeData segs }
    if lastSeg then
      let (segs, cw) := p.cw.flush
      { p with cw := cw, sw := p.sw.writeData segs }
    else p

/-- The out-of-order rows of the current column up to `max`. -/
def readUnordered (p : MergePerformer F V) (max : ℤ) : TimedCol V × MergePerformer F V :=
  if p.noUnorderedColumn then
    let (times, ur) := p.ur.readTimes max
    (graph times fun _ => none, { p with ur := ur })
  else
    let (col, ur) := p.ur.read max
    (col, { p with ur := ur })

def merge (p : MergePerformer F V) (orderCol : ColVal V) (orderTimes : List ℤ)
    (unordered : TimedCol V) (lastSeg : Bool) : Option (MergePerformer F V) :=
  -- no out-of-order data in the time range
  if unordered.length = 0 then p.write limit orderCol orderTimes lastSeg
  else
    let merged := MergeHelper.merge [unordered] (orderTimes.zip orderCol)
    p.write limit (merged.map Prod.snd) (merged.map Prod.fst) lastSeg

/-- One segment of an ordered column. -/
def handle (p : MergePerformer F V) (col : ColVal V) (times : List ℤ) (lastSeg : Bool) : Option (MergePerformer F V) :=
  if p.noUnorderedSeries then p.write limit col times lastSeg
  else
    match times.getLast? with
    | none => none
    | some last =>
      let maxOrderTime := if p.lastSeries && lastSeg then maxInt64 else last
      let (unordered, p) := p.readUnordered maxOrderTime
      p.merge limit col times unordered lastSeg

def seriesChanged (sid : ℕ) (orderTimes : List ℤ) (p : MergePerformer F V) : MergePerformer F V :=
  match orderTimes.getLast? with
  | none => { p with sid := 0 }
  | some last =>
    let maxOrderTime := if p.lastSeries then maxInt64 else last
    let ur := p.ur.initTimes maxOrderTime
    if ur.times.length = 0 then
      { p with
        sid := sid, ur := ur, noUnorderedSeries := true, unorderedSchemas := []
        mergedTimes := orderTimes }
    else
      { p with
        sid := sid, ur := ur, noUnorderedSeries := false
        unorderedSchemas := ur.readSeriesSchemas maxOrderTime
        mergedTimes := mergeTimes orderTimes ur.times }

/-- A column that exists in out-of-order files only. -/
def writeUnorderedCol (ref : F) (p : MergePerformer F V) : Option (MergePerformer F V) :=
  match p.mergedTimes.getLast? with
  | none => none
  | some last =>
    let maxTime := if p.lastSeries then maxInt64 else last
    let (unordered, ur) := (p.ur.changeColumn ref).read maxTime
    merge limit { p with ur := ur, sw := p.sw.appendColumn ref }
      (replicate p.mergedTimes.length none) p.mergedTimes unordered true

/-- The loop of `columnChanged`: out-of-order columns in front of `ref` are written; the columns
left, and whether `ref` is none of them. -/
def writeSmaller (ref : F) : List F → MergePerformer F V → Option (List F × Bool × MergePerformer F V)
  | [], p => some ([], true, p)
  | uRef :: schemas, p =>
    if uRef < ref then (p.writeUnorderedCol limit uRef).bind (writeSmaller ref schemas)
    else if uRef = ref then some (schemas, false, p)
    else some (uRef :: schemas, true, p)

def columnChanged (ref : F) (p : MergePerformer F V) : Option (MergePerformer F V) :=
  if p.noUnorderedSeries || p.unorderedSchemas.isEmpty then
    some { p with
      noUnorderedColumn := true, ur := p.ur.changeColumn ref, sw := p.sw.appendColumn ref }
  else
    (writeSmaller limit ref p.unorderedSchemas p).map fun (schemas, noColumn, p) =>
      { p with
        noUnorderedColumn := noColumn, unorderedSchemas := schemas
        ur := p.ur.changeColumn ref, sw := p.sw.appendColumn ref }

/-- The loop of `writeRemainCol`. -/
def writeUnorderedCols : List F → MergePerformer F V → Option (MergePerformer F V)
  | [], p => some p
  | ref :: schemas, p => (p.writeUnorderedCol limit ref).bind (writeUnorderedCols schemas)

def writeRemainCol (p : MergePerformer F V) : Option (MergePerformer F V) :=
  (writeUnorderedCols limit p.unorderedSchemas p).map fun p => { p with unorderedSchemas := [] }

def writeMergedTime (p : MergePerformer F V) : MergePerformer F V :=
  if p.sid = 0 then p
  else { p with sw := { p.sw with times := ColumnWriter.writeAll limit p.mergedTimes } }

def finishSeries (p : MergePerformer F V) : Option (MergePerformer F V) :=
  (p.writeRemainCol limit).map (writeMergedTime limit)

/-- `ColumnIterator.walkSegment`: the segments of one column with the times they belong to. -/
def walkSegment : List (ColVal V) → List ℤ → MergePerformer F V → Option (MergePerformer F V)
  | [], _, _ => none
  | col :: cols, times, p =>
    if times.length < col.length then none
    else
      (p.handle limit col (times.take col.length) cols.isEmpty).bind fun p =>
        if cols.isEmpty then some p else walkSegment cols (times.drop col.length) p

/-- `ColumnIterator.walkColumn`: the columns of the chunk. -/
def walkColumn (times : List ℤ) : List (F × List (ColVal V)) → MergePerformer F V → Option (MergePerformer F V)
  | [], p => some p
  | (ref, segs) :: cols, p =>
    (p.columnChanged limit ref).bind fun p =>
      (walkSegment limit segs times p).bind (walkColumn times cols)

/-- `ColumnIterator.IterCurrentChunk`. -/
def iterCurrentChunk (c : Chunk F V) (p : MergePerformer F V) : Option (MergePerformer F V) :=
  if p.ur.hasSeries then walkColumn limit c.times c.cols (p.seriesChanged p.sid c.times)
  else some { p.seriesChanged p.sid [] with sw := SeriesOut.original c }

end MergePerformer

/-- The series in one ordered file: what is written, and the out-of-order readers afterwards. -/
def mergeChunk (limit sid : ℕ) (lastSeries : Bool) (c : Chunk F V) (ur : UnorderedReader F V) :
    Option (SeriesOut F V × UnorderedReader F V) :=
  ((MergePerformer.init lastSeries sid ur).iterCurrentChunk limit c).bind fun p =>
    (p.finishSeries limit).map fun p => (p.sw, p.ur)

/-- `MergePerformers.Next` for one series: its chunks are popped in the order of their times, and
the last one is flagged. -/
def mergeSeries (limit sid : ℕ) : List (Chunk F V) → UnorderedReader F V → Option (List (SeriesOut F V))
  | [], _ => some []
  | c :: cs, ur =>
    (mergeChunk limit sid cs.isEmpty c ur).bind fun (out, ur) =>
      (mergeSeries limit sid cs ur).map (out :: ·)

/-! ### One ordered chunk and the out-of-order rows merged into it -/

/-- An ordered chunk, the out-of-order chunks of the series, and the time up to which these have
been merged already. -/
structure MergeWindow (F V : Type*) [LinearOrder F] where
  limit : ℕ
  limit_whole : ColumnWriter.Whole limit
  chunks : List (Chunk F V)
  chunks_wf : ∀ c ∈ chunks, c.WF
  chunk : Chunk F V
  chunk_wf : chunk.WF
  lastSeries : Bool
  lower : ℤ
  lower_lt : ∀ t ∈ chunk.times, lower < t

namespace MergeWindow

variable (w : MergeWindow F V)

/-- The last time of the chunk. -/
def lastTime : ℤ := w.chunk.times.getLast w.chunk_wf.times_ne

/-- The time up to which out-of-order rows are merged. -/
def upper : ℤ := if w.lastSeries then maxInt64 else w.lastTime

/-- The times of the out-of-order rows to merge. -/
def newTimes : List ℤ := UnorderedReader.windowTimes w.chunks w.lower w.upper

/-- All times to write. -/
def allTimes : List ℤ := mergeTimes w.chunk.times w.newTimes

/-- The value to write. -/
def cell (f : F) (t : ℤ) : Option V := (newestValue w.chunks f t).or (w.chunk.value f t)

/-- The column to write. -/
def column (f : F) : TimedCol V := graph w.allTimes (w.cell f)

/-- The column as it is cut into segments. -/
def segments (f : F) : List (Segment V) := (splitEvery w.limit (w.column f)).map ColumnWriter.segment

/-- No out-of-order chunk with the column has rows to merge. -/
def Absent (f : F) : Prop := ∀ c ∈ w.chunks, f ∈ c.cols.map Prod.fst → ∀ t ∈ c.times, ¬ (w.lower < t ∧ t ≤ w.upper)

/-- Some out-of-order chunk with rows up to the upper bound has the column. -/
def InSchemas (f : F) : Prop := ∃ c ∈ w.chunks, (∃ t ∈ c.times, t ≤ w.upper) ∧ f ∈ c.cols.map Prod.fst

variable {f : F}

theorem absent_of_not_inSchemas (h : ¬ w.InSchemas f) : w.Absent f :=
  fun c hc hf t ht hwin => h ⟨c, hc, ⟨t, ht, hwin.2⟩, hf⟩

variable {t : ℤ}

theorem le_lastTime (ht : t ∈ w.chunk.times) : t ≤ w.lastTime :=
  le_getLast? w.chunk_wf.ascending (getLast?_eq_some_getLast w.chunk_wf.times_ne) ht

theorem lastTime_mem : w.lastTime ∈ w.chunk.times := getLast_mem _

theorem lastTime_le_upper : w.lastTime ≤ w.upper := by
  unfold upper
  split_ifs
  · exact (w.chunk_wf.int64 _ w.lastTime_mem).2
  · exact le_rfl

theorem le_upper (ht : t ∈ w.chunk.times) : t ≤ w.upper := (w.le_lastTime ht).trans w.lastTime_le_upper

theorem lower_le_upper : w.lower ≤ w.upper := (w.lower_lt _ w.lastTime_mem).le.trans w.lastTime_le_upper

theorem pairwise_newTimes : w.newTimes.Pairwise (· < ·) := UnorderedReader.pairwise_windowTimes w.chunks_wf _ _

theorem mem_newTimes : t ∈ w.newTimes ↔ (∃ c ∈ w.chunks, t ∈ c.times) ∧ w.lower < t ∧ t ≤ w.upper :=
  UnorderedReader.mem_windowTimes w.chunks_wf

theorem pairwise_allTimes : w.allTimes.Pairwise (· < ·) := pairwise_mergeTimes w.chunk_wf.ascending w.pairwise_newTimes

theorem mem_allTimes : t ∈ w.allTimes ↔ t ∈ w.chunk.times ∨ t ∈ w.newTimes := mem_mergeTimes

theorem window_of_mem_allTimes (ht : t ∈ w.allTimes) : w.lower < t ∧ t ≤ w.upper := by
  rcases w.mem_allTimes.mp ht with h | h
  · exact ⟨w.lower_lt t h, w.le_upper h⟩
  · exact (w.mem_newTimes.mp h).2

theorem allTimes_ne : w.allTimes ≠ [] := by
  intro h
  have := w.mem_allTimes.mpr (.inl w.lastTime_mem)
  rw [h] at this
  simp at this

/-- Without `lastSeries` the last time to write is the last time of the chunk. -/
theorem getLast?_allTimes (h : w.lastSeries = false) : w.allTimes.getLast? = some w.upper := by
  have hupper : w.upper = w.lastTime := by rw [upper, h]; rfl
  rw [getLast?_eq_some_getLast w.allTimes_ne, Option.some.injEq]
  refine le_antisymm (w.window_of_mem_allTimes (getLast_mem _)).2 ?_
  rw [hupper]
  exact le_getLast? w.pairwise_allTimes (getLast?_eq_some_getLast _) (w.mem_allTimes.mpr (.inl w.lastTime_mem))

/-- At a time no out-of-order row is merged at, the newest value is null. -/
theorem newestValue_of_notMem (hwin : w.lower < t ∧ t ≤ w.upper) (h : t ∉ w.newTimes) :
    newestValue w.chunks f t = none := by
  refine newestValue_eq_none fun c hc => Chunk.value_of_notMem fun hmem => h ?_
  exact w.mem_newTimes.mpr ⟨⟨c, hc, hmem⟩, hwin⟩

theorem newestValue_of_absent (hf : w.Absent f) (hwin : w.lower < t ∧ t ≤ w.upper) :
    newestValue w.chunks f t = none := by
  refine newestValue_eq_none fun c hc => ?_
  cases hl : c.cols.lookup f with
  | none => exact Chunk.value_of_lookup_none hl t
  | some segs =>
    refine Chunk.value_of_notMem fun hmem => ?_
    exact hf c hc (mem_map_of_mem (mem_of_lookup hl)) t hmem hwin

/-- **A segment merged with the out-of-order rows in its time range** is the part of the column in
that range. -/
theorem merge_segment {a b : ℤ} (ha : w.lower ≤ a) (hb : b ≤ w.upper) {ts : List ℤ}
    (hts : ts = w.chunk.times.filter fun t => a < t ∧ t ≤ b) :
    mergeCol (graph ts (w.chunk.value f)) (graph (w.newTimes.filter fun t => a < t ∧ t ≤ b) (newestValue w.chunks f)) =
      graph (w.allTimes.filter fun t => a < t ∧ t ≤ b) (w.cell f) := by
  subst hts
  rw [mergeCol_graph (w.chunk_wf.ascending.filter _) (w.pairwise_newTimes.filter _)]
  · rw [mergeTimes_eq (w.chunk_wf.ascending.filter _) (w.pairwise_newTimes.filter _) (w.pairwise_allTimes.filter _)]
    · rfl
    · intro t
      simp only [mem_filter, w.mem_allTimes, or_and_right]
  · intro t ht hnot
    simp only [mem_filter] at ht hnot
    exact Chunk.value_of_notMem fun hmem => hnot ⟨hmem, ht.2⟩
  · intro t ht hnot
    simp only [mem_filter, decide_eq_true_eq] at ht hnot
    refine w.newestValue_of_notMem ⟨ha.trans_lt ht.2.1, ht.2.2.trans hb⟩ fun hmem => ?_
    exact hnot ⟨hmem, ht.2⟩

theorem merge_nil (hf : ∀ t, w.chunk.value f t = none) :
    mergeCol (graph w.allTimes fun _ => none) (graph w.newTimes (newestValue w.chunks f)) = w.column f := by
  rw [mergeCol_graph w.pairwise_allTimes w.pairwise_newTimes (fun _ _ _ => rfl)]
  · rw [mergeTimes_eq w.pairwise_allTimes w.pairwise_newTimes w.pairwise_allTimes]
    · refine graph_congr fun t _ => ?_
      rw [cell, hf]
    · intro t
      rw [w.mem_allTimes]
      tauto
  · intro t ht hnot
    exact w.newestValue_of_notMem (w.window_of_mem_allTimes ht) hnot

end MergeWindow

end GeminiTS
