import GeminiTS.Immutable.Chunk
import GeminiTS.Lib.Lists
import GeminiTS.Lib.SortSearch
import GeminiTS.Record.MergeHelper

/-!
# UnorderedReader — reading out-of-order data in step with ordered data

`UnorderedColumnReader` (`engine/immutable/unordered_reader.go`) reads the chunk of one series from
one out-of-order file, column by column, always up to a given time. Every column keeps its own line
offset, segment offset and a rest of decoded rows. `UnorderedReader` drives the readers of all
files, oldest file first.

The readers are positioned at one series: `ChangeSeries` has loaded its chunk into each of them.

Where a reader stands is a time per column: all rows of the column up to that time have been read.
Reading a column up to a later time hands out the rows in between and moves that column only.
-/

namespace GeminiTS

open Lib Function

variable {F V : Type*} [LinearOrder F]

/-- A column of a chunk and how far it has been read. -/
structure UnorderedColumn (V : Type*) where
  entries : List (ColVal V)
  lineOffset : ℕ
  segOffset : ℕ
  remain : ColVal V

namespace UnorderedColumn

/-- Append segments to `col` until it has the rows needed; the number of segments read. -/
def readSegments (need : ℕ) : List (ColVal V) → ColVal V → ColVal V × ℕ
  | [], col => (col, 0)
  | swap :: entries, col =>
    let col := col ++ swap
    if need ≤ col.length then (col, 1)
    else
      let (col, n) := readSegments need entries col
      (col, n + 1)

/-- The next `need` rows (`UnorderedColumnReader.read` with `split`). -/
def read (c : UnorderedColumn V) (need : ℕ) : ColVal V × UnorderedColumn V :=
  let (col, n) :=
    if c.remain.length = 0 ∨ c.remain.length < need then
      readSegments need (c.entries.drop c.segOffset) c.remain
    else (c.remain, 0)
  if col.length ≤ need then (col, { c with segOffset := c.segOffset + n, remain := [] })
  else (col.take need, { c with segOffset := c.segOffset + n, remain := col.drop need })

end UnorderedColumn

/-- The reader of one out-of-order file; `ref` is the current column, nil if the file lacks it. -/
structure UnorderedColumnReader (F V : Type*) where
  columns : List (F × UnorderedColumn V)
  times : List ℤ
  timeOffset : ℕ
  remainLine : ℤ
  ref : Option F

namespace UnorderedColumnReader

/-- `ChangeSeries` on the chunk of the series: nothing read yet but the times. -/
def init (c : Chunk F V) : UnorderedColumnReader F V where
  columns := c.cols.map fun p => (p.1, ⟨p.2, 0, 0, []⟩)
  times := c.times
  timeOffset := 0
  remainLine := (c.cols.length + 1) * c.times.length
  ref := none

/-- `MatchSeries`: something is left to read. -/
def matchSeries (r : UnorderedColumnReader F V) : Bool := 0 < r.remainLine

def changeColumn (ref : F) (r : UnorderedColumnReader F V) : UnorderedColumnReader F V :=
  { r with ref := if (r.columns.lookup ref).isSome then some ref else none }

def readTimeFrom (r : UnorderedColumnReader F V) (maxTime : ℤ) (start : ℕ) : List ℤ :=
  let stop := countLe r.times maxTime
  if stop < start then [] else r.times.extract start stop

/-- The next times up to `maxTime` (`ReadTime`). -/
def readTime (r : UnorderedColumnReader F V) (maxTime : ℤ) : List ℤ × UnorderedColumnReader F V :=
  let times := r.readTimeFrom maxTime r.timeOffset
  (times, { r with
    timeOffset := r.timeOffset + times.length
    remainLine := r.remainLine - times.length })

/-- The next rows of the current column up to `maxTime` (`Read`); empty for nil. -/
def read (r : UnorderedColumnReader F V) (maxTime : ℤ) : TimedCol V × UnorderedColumnReader F V :=
  match r.ref with
  | none => ([], r)
  | some ref =>
    match r.columns.lookup ref with
    | none => ([], r)
    | some c =>
      let times := r.readTimeFrom maxTime c.lineOffset
      if times.length = 0 then ([], r)
      else
        let (col, c) := { c with lineOffset := c.lineOffset + times.length }.read times.length
        (times.zip col, { r with
          columns := assocSet r.columns ref c
          remainLine := r.remainLine - times.length })

/-- The columns of a file that has rows up to `maxTime` (`ReadSchemas`). -/
def readSchemas (r : UnorderedColumnReader F V) (maxTime : ℤ) : List F :=
  match r.times with
  | [] => []
  | t :: _ => if maxTime < t then [] else r.columns.map Prod.fst

end UnorderedColumnReader

open UnorderedColumnReader

/-- The readers of all out-of-order files, oldest first, the times read for the current ordered
chunk and how many of them the current column has consumed. -/
structure UnorderedReader (F V : Type*) where
  readers : List (UnorderedColumnReader F V)
  ofs : ℕ
  times : List ℤ

namespace UnorderedReader

def init (chunks : List (Chunk F V)) : UnorderedReader F V := ⟨chunks.map UnorderedColumnReader.init, 0, []⟩

def hasSeries (ur : UnorderedReader F V) : Bool := ur.readers.any (·.matchSeries)

def changeColumn (ref : F) (ur : UnorderedReader F V) : UnorderedReader F V :=
  { ur with ofs := 0, readers := ur.readers.map (·.changeColumn ref) }

/-- The times of all readers up to `maxTime` (`InitTimes`). -/
def initTimes (maxTime : ℤ) (ur : UnorderedReader F V) : UnorderedReader F V := { ur with
    times := (ur.readers.map fun r => (r.readTime maxTime).1).foldl mergeTimes []
    readers := ur.readers.map fun r => (r.readTime maxTime).2 }

/-- The next times up to `maxTime` for the current column (`ReadTimes`). -/
def readTimes (ur : UnorderedReader F V) (maxTime : ℤ) : List ℤ × UnorderedReader F V :=
  if ur.times[ur.ofs]?.all (maxTime < ·) then ([], ur)
  else
    let stop := countLe ur.times maxTime
    (ur.times.extract ur.ofs stop, { ur with ofs := stop })

/-- The rows of the current column up to `maxTime`, merged over all readers (`Read`); empty for
nil. -/
def read (ur : UnorderedReader F V) (maxTime : ℤ) : TimedCol V × UnorderedReader F V :=
  let (nilTimes, ur) := ur.readTimes maxTime
  if nilTimes.length = 0 then ([], ur)
  else
    let cols := (ur.readers.map fun r => (r.read maxTime).1).filter fun c => c.length ≠ 0
    let ur := { ur with readers := ur.readers.map fun r => (r.read maxTime).2 }
    (MergeHelper.merge cols (graph nilTimes fun _ => none), ur)

/-- The names of all columns of files with rows up to `maxTime`, in order
(`ReadSeriesSchemas`). -/
def readSeriesSchemas (ur : UnorderedReader F V) (maxTime : ℤ) : List F :=
  ((ur.readers.flatMap fun r => r.readSchemas maxTime).dedup).insertionSort (· ≤ ·)

end UnorderedReader

open List

/-! ### One column -/

namespace UnorderedColumn

/-- The first `n` rows of the column have been read. -/
structure At (segs : List (ColVal V)) (n : ℕ) (c : UnorderedColumn V) : Prop where
  entries_eq : c.entries = segs
  lineOffset_eq : c.lineOffset = n
  rest_eq : c.remain ++ (c.entries.drop c.segOffset).flatten = segs.flatten.drop n

theorem readSegments_spec (need : ℕ) (entries : List (ColVal V)) (col : ColVal V) :
    (readSegments need entries col).1 ++ (entries.drop (readSegments need entries col).2).flatten =
        col ++ entries.flatten ∧
      (need ≤ (col ++ entries.flatten).length → need ≤ (readSegments need entries col).1.length) := by
  induction entries generalizing col with
  | nil => simp [readSegments]
  | cons swap entries ih =>
    by_cases h : need ≤ (col ++ swap).length
    · simp only [readSegments, if_pos h, drop_succ_cons, drop_zero, flatten_cons, append_assoc, true_and]
      exact fun _ => h
    · simp only [readSegments, if_neg h, drop_succ_cons]
      obtain ⟨heq, hlen⟩ := ih (col ++ swap)
      rw [heq, append_assoc]
      exact ⟨rfl, fun hneed => hlen (by rwa [append_assoc])⟩

theorem read_spec {segs : List (ColVal V)} {n need : ℕ} {c : UnorderedColumn V} (hc : c.At segs n)
    (hneed : n + need ≤ segs.flatten.length) :
    ({ c with lineOffset := c.lineOffset + need }.read need).1 = segs.flatten.extract n (n + need) ∧
      At segs (n + need) ({ c with lineOffset := c.lineOffset + need }.read need).2 := by
  obtain ⟨col, k, hread, hrest, hlen⟩ : ∃ col k, (if c.remain.length = 0 ∨ c.remain.length < need then
        readSegments need (c.entries.drop c.segOffset) c.remain else (c.remain, 0)) = (col, k) ∧
      col ++ (c.entries.drop (c.segOffset + k)).flatten = segs.flatten.drop n ∧
      need ≤ col.length := by
    by_cases h : c.remain.length = 0 ∨ c.remain.length < need
    · obtain ⟨heq, hlen⟩ := readSegments_spec need (c.entries.drop c.segOffset) c.remain
      rw [hc.rest_eq, drop_drop] at heq
      refine ⟨_, _, if_pos h, heq, hlen ?_⟩
      rw [hc.rest_eq, length_drop]
      omega
    · exact ⟨_, _, if_neg h, hc.rest_eq, by omega⟩
  have hcol : segs.flatten.extract n (n + need) = col.take need := by
    rw [extract_eq_take_drop, ← hrest, Nat.add_sub_cancel_left, take_append_of_le_length hlen]
  have hdrop : segs.flatten.drop (n + need) = col.drop need ++ (c.entries.drop (c.segOffset + k)).flatten := by
    rw [← drop_drop, ← hrest, drop_append_of_le_length hlen]
  unfold read
  simp only [hread]
  split_ifs with hfull
  · have hcut : col.take need = col := take_of_length_le hfull
    have hnil : col.drop need = [] := drop_of_length_le hfull
    refine ⟨by rw [hcol, hcut], hc.entries_eq, by rw [hc.lineOffset_eq], ?_⟩
    rw [hdrop, hnil]
  · exact ⟨hcol.symm, hc.entries_eq, by rw [hc.lineOffset_eq], hdrop.symm⟩

end UnorderedColumn

/-! ### One file -/

namespace UnorderedColumnReader

/-- Every column `f` of the chunk has been read up to time `pos f`, the time column up to `tm`. -/
structure At (c : Chunk F V) (pos : F → ℤ) (tm : ℤ) (r : UnorderedColumnReader F V) : Prop where
  times_eq : r.times = c.times
  timeOffset_eq : r.timeOffset = countLe c.times tm
  names_eq : r.columns.map Prod.fst = c.cols.map Prod.fst
  column : ∀ f segs, c.cols.lookup f = some segs →
    ∃ col, r.columns.lookup f = some col ∧ col.At segs (countLe c.times (pos f))
  remainLine_eq : r.remainLine = (c.cols.map fun p => (c.times.length - countLe c.times (pos p.1) : ℤ)).sum +
      (c.times.length - countLe c.times tm)

variable {c : Chunk F V} {pos : F → ℤ} {tm : ℤ} {r : UnorderedColumnReader F V}

variable {m maxTime : ℤ}

theorem countLe_eq_zero {l : List ℤ} (hl : l.Pairwise (· < ·)) (h : ∀ t ∈ l, m < t) : countLe l m = 0 := by
  rw [countLe_eq hl, length_eq_zero_iff, filter_eq_nil_iff]
  intro t ht
  simpa using h t ht

theorem at_init (hc : c.WF) (hm : ∀ t ∈ c.times, m < t) : (init c).At c (fun _ => m) m where
  times_eq := rfl
  timeOffset_eq := (countLe_eq_zero hc.ascending hm).symm
  names_eq := by simp [init]
  column := by
    intro f segs h
    refine ⟨⟨segs, 0, 0, []⟩, ?_, rfl, ?_, ?_⟩
    · show (c.cols.map fun p => (p.1, (⟨p.2, 0, 0, []⟩ : UnorderedColumn V))).lookup f = _
      rw [lookup_map_snd (fun s : List (ColVal V) => (⟨s, 0, 0, []⟩ : UnorderedColumn V)), h]
      rfl
    · exact (countLe_eq_zero hc.ascending hm).symm
    · rw [countLe_eq_zero hc.ascending hm]
      rfl
  remainLine_eq := by
    rw [countLe_eq_zero hc.ascending hm]
    simp only [init, map_const', sum_replicate]
    ring

theorem At.congr (h : r.At c pos tm) {pos' : F → ℤ} {tm' : ℤ}
    (hpos : ∀ f ∈ c.cols.map Prod.fst, countLe c.times (pos f) = countLe c.times (pos' f))
    (htm : countLe c.times tm = countLe c.times tm') : r.At c pos' tm' where
  times_eq := h.times_eq
  timeOffset_eq := h.timeOffset_eq.trans htm
  names_eq := h.names_eq
  column := by
    intro f segs hf
    obtain ⟨col, hl, hcol⟩ := h.column f segs hf
    refine ⟨col, hl, ?_⟩
    rw [← hpos f (mem_map_of_mem (mem_of_lookup hf))]
    exact hcol
  remainLine_eq := by
    rw [h.remainLine_eq, htm]
    congr 2
    refine map_congr_left fun p hp => ?_
    rw [hpos p.1 (mem_map_of_mem hp)]

/-- Something is left to read exactly when not all rows have been read. -/
theorem At.matchSeries (h : r.At c (fun _ => tm) tm) : r.matchSeries = true ↔ countLe c.times tm < c.times.length := by
  have hrem : r.remainLine = (c.cols.length + 1) * (c.times.length - countLe c.times tm) := by
    rw [h.remainLine_eq, map_const', sum_replicate]
    ring
  rw [UnorderedColumnReader.matchSeries, decide_eq_true_eq, hrem, mul_pos_iff_of_pos_left (by positivity)]
  omega

theorem At.readTime (hc : c.WF) (h : r.At c pos tm) (hle : tm ≤ maxTime) :
    (r.readTime maxTime).1 = c.times.filter (fun t => tm < t ∧ t ≤ maxTime) ∧
      (r.readTime maxTime).2.At c pos maxTime := by
  have hmono := countLe_mono hc.ascending hle
  have hbound := countLe_le hc.ascending maxTime
  have htimes : r.readTimeFrom maxTime r.timeOffset =
      c.times.extract (countLe c.times tm) (countLe c.times maxTime) := by
    rw [readTimeFrom, h.times_eq, h.timeOffset_eq, if_neg (by omega)]
  have hlen : (c.times.extract (countLe c.times tm) (countLe c.times maxTime)).length =
      countLe c.times maxTime - countLe c.times tm := by
    rw [length_extract]
    omega
  simp only [UnorderedColumnReader.readTime, htimes, hlen]
  refine ⟨extract_countLe hc.ascending hle, h.times_eq, ?_, h.names_eq, h.column, ?_⟩
  · show r.timeOffset + _ = _
    rw [h.timeOffset_eq]
    omega
  · show r.remainLine - _ = _
    rw [h.remainLine_eq, Nat.cast_sub hmono]
    ring

/-- The current column is `f`, if the chunk has it. -/
def OnColumn (c : Chunk F V) (f : F) (r : UnorderedColumnReader F V) : Prop :=
  r.ref = if (c.cols.lookup f).isSome then some f else none

theorem At.changeColumn (h : r.At c pos tm) (f : F) :
    (r.changeColumn f).At c pos tm ∧ (r.changeColumn f).OnColumn c f := by
  refine ⟨⟨h.times_eq, h.timeOffset_eq, h.names_eq, h.column, h.remainLine_eq⟩, ?_⟩
  have hsome : (r.columns.lookup f).isSome ↔ (c.cols.lookup f).isSome := by
    rw [lookup_isSome, lookup_isSome, h.names_eq]
  simp only [OnColumn, UnorderedColumnReader.changeColumn, hsome]

/-- The times at which the file hands out rows of column `f`. -/
def window (c : Chunk F V) (f : F) (a b : ℤ) : List ℤ :=
  if (c.cols.lookup f).isSome then c.times.filter fun t => a < t ∧ t ≤ b else []

theorem sum_map_of_eq_off {l : List F} (hl : l.Nodup) {g g' : F → ℤ} {f : F} (hf : f ∈ l)
    (h : ∀ x, x ≠ f → g' x = g x) : (l.map g').sum = (l.map g).sum + (g' f - g f) := by
  have hrest : (l.erase f).map g' = (l.erase f).map g :=
    map_congr_left fun x hx => h x fun hxf => hl.not_mem_erase (hxf ▸ hx)
  rw [← sum_map_erase g' hf, ← sum_map_erase g hf, hrest]
  ring

/-- **Reading the current column** hands out its rows after `pos f` up to `maxTime`. -/
theorem At.read (hc : c.WF) (h : r.At c pos tm) {f : F} (hf : r.OnColumn c f) (hle : pos f ≤ maxTime) :
    (r.read maxTime).1 = graph (window c f (pos f) maxTime) (c.value f) ∧
      (r.read maxTime).2.At c (update pos f maxTime) tm ∧
      (r.read maxTime).2.OnColumn c f := by
  cases hl : c.cols.lookup f with
  | none =>
    have href : r.ref = none := by rw [hf, hl]; rfl
    simp only [UnorderedColumnReader.read, href, window, hl]
    refine ⟨rfl, h.congr (fun g hg => ?_) rfl, hf⟩
    have hne : g ≠ f := by
      rintro rfl
      exact lookup_eq_none.mp hl hg
    rw [update_of_ne hne]
  | some segs =>
    have href : r.ref = some f := by rw [hf, hl]; rfl
    obtain ⟨col, hcol, hat⟩ := h.column f segs hl
    have hmem := mem_of_lookup hl
    have hfmem : f ∈ c.cols.map Prod.fst := mem_map_of_mem hmem
    have hlen := hc.length_flatten hmem
    have hmono := countLe_mono hc.ascending hle
    have hbound := countLe_le hc.ascending maxTime
    have htimes : r.readTimeFrom maxTime col.lineOffset =
        c.times.extract (countLe c.times (pos f)) (countLe c.times maxTime) := by
      rw [readTimeFrom, h.times_eq, hat.lineOffset_eq, if_neg (by omega)]
    have htlen : (c.times.extract (countLe c.times (pos f)) (countLe c.times maxTime)).length =
        countLe c.times maxTime - countLe c.times (pos f) := by
      rw [length_extract]
      omega
    have hwin : window c f (pos f) maxTime = c.times.extract (countLe c.times (pos f)) (countLe c.times maxTime) := by
      rw [window, hl, extract_countLe hc.ascending hle]
      rfl
    simp only [UnorderedColumnReader.read, href, hcol, htimes, htlen]
    split_ifs with hzero
    · -- nothing in the window: the column stays where it is
      have heq : countLe c.times (pos f) = countLe c.times maxTime := by omega
      refine ⟨?_, h.congr (fun g _ => ?_) rfl, hf⟩
      · rw [hwin, heq, extract_of_le _ le_rfl]
        rfl
      · by_cases hg : g = f
        · subst hg
          rw [update_self, heq]
        · rw [update_of_ne hg]
    · have hsum : countLe c.times (pos f) + (countLe c.times maxTime - countLe c.times (pos f)) =
          countLe c.times maxTime := by omega
      obtain ⟨hread, hat'⟩ := UnorderedColumn.read_spec hat (hsum.trans_le (hbound.trans_eq hlen.symm))
      rw [hsum] at hread hat'
      refine ⟨?_, ⟨h.times_eq, h.timeOffset_eq, ?_, ?_, ?_⟩, href.symm.trans hf⟩
      · rw [hread, hwin, extract_zip_eq_graph hc.nodup hlen]
        exact graph_congr fun t _ => (Chunk.value_of_lookup hl t).symm
      · rw [map_fst_assocSet]
        exact h.names_eq
      · intro g segs' hg
        by_cases hgf : g = f
        · subst hgf
          obtain rfl : segs = segs' := Option.some.inj (hl.symm.trans hg)
          refine ⟨_, lookup_assocSet_self (by rw [h.names_eq]; exact hfmem) _, ?_⟩
          rw [update_self]
          exact hat'
        · obtain ⟨col', hcol', hat''⟩ := h.column g segs' hg
          refine ⟨col', by rw [lookup_assocSet_of_ne hgf]; exact hcol', ?_⟩
          rw [update_of_ne hgf]
          exact hat''
      · show r.remainLine - _ = _
        have hnodup : (c.cols.map Prod.fst).Nodup := hc.names.imp fun hab => hab.ne
        let left (p : F → ℤ) g : ℤ := c.times.length - countLe c.times (p g)
        have hsums : ((c.cols.map Prod.fst).map (left (update pos f maxTime))).sum =
            ((c.cols.map Prod.fst).map (left pos)).sum + (left (update pos f maxTime) f - left pos f) :=
          sum_map_of_eq_off hnodup hfmem fun x hx => by simp only [left, update_of_ne hx]
        simp only [left, map_map, comp_def, update_self] at hsums
        rw [hsums, h.remainLine_eq, Nat.cast_sub hmono]
        ring

end UnorderedColumnReader

/-! ### All files -/

/-- The value of a field at a time in the newest file that has one; files are listed oldest
first. -/
def newestValue (chunks : List (Chunk F V)) (f : F) (t : ℤ) : Option V :=
  chunks.foldl (fun acc c => (c.value f t).or acc) none

variable {chunks : List (Chunk F V)}

theorem newestValue_eq_none {f : F} {t : ℤ} (h : ∀ c ∈ chunks, c.value f t = none) : newestValue chunks f t = none :=
  foldlRecOn (motive := (· = none)) chunks _ rfl fun v hv c hc => by rw [h c hc, hv, Option.or_none]

theorem cell_newest_table (hc : ∀ c ∈ chunks, c.WF) (t : ℤ) (f : F) :
    Table.cell (Table.newest (chunks.map Chunk.table)) t f = newestValue chunks f t := by
  induction chunks using reverseRecOn with
  | nil => rfl
  | append_singleton cs c ih =>
    rw [map_append, map_singleton, Table.newest_concat, Table.cell_overlay,
      (hc c (by simp)).cell_table, ih fun c' hc' => hc c' (by simp [hc'])]
    simp [newestValue]

namespace UnorderedReader

/-- All readers stand at `pos`, their time columns at `tm`. -/
def At (chunks : List (Chunk F V)) (pos : F → ℤ) (tm : ℤ) (ur : UnorderedReader F V) : Prop :=
  List.Forall₂ (fun c r => UnorderedColumnReader.At c pos tm r) chunks ur.readers

/-- All readers are at column `f`, and its times have been consumed up to `a`. -/
structure OnColumn (chunks : List (Chunk F V)) (f : F) (a : ℤ) (ur : UnorderedReader F V) : Prop where
  readers : List.Forall₂ (fun c r => UnorderedColumnReader.OnColumn c f r) chunks ur.readers
  ofs_eq : ur.ofs = countLe ur.times a

/-- The times of all files after `a` and up to `b`. -/
def windowTimes (chunks : List (Chunk F V)) (a b : ℤ) : List ℤ :=
  (chunks.map fun c => c.times.filter fun t => a < t ∧ t ≤ b).foldl mergeTimes []

theorem foldl_mergeTimes {ls : List (List ℤ)} (hls : ∀ l ∈ ls, l.Pairwise (· < ·)) {base : List ℤ}
    (hbase : base.Pairwise (· < ·)) :
    (ls.foldl mergeTimes base).Pairwise (· < ·) ∧ ∀ t, t ∈ ls.foldl mergeTimes base ↔ t ∈ base ∨ ∃ l ∈ ls, t ∈ l := by
  induction ls generalizing base with
  | nil => exact ⟨hbase, by simp⟩
  | cons l ls ih =>
    have hstep := pairwise_mergeTimes hbase (hls l (by simp))
    obtain ⟨hsorted, hmem⟩ := ih (fun l' hl' => hls l' (mem_cons_of_mem _ hl')) hstep
    refine ⟨hsorted, fun t => ?_⟩
    rw [foldl_cons, hmem, mem_mergeTimes]
    simp only [mem_cons, exists_eq_or_imp, or_assoc]

section Window

variable {chunks : List (Chunk F V)} (hcs : ∀ c ∈ chunks, c.WF)

include hcs

theorem pairwise_windowTimes (a b : ℤ) : (windowTimes chunks a b).Pairwise (· < ·) := by
  refine (foldl_mergeTimes (fun l hl => ?_) .nil).1
  obtain ⟨c, hc, rfl⟩ := mem_map.mp hl
  exact (hcs c hc).ascending.filter _

theorem mem_windowTimes {a b t : ℤ} : t ∈ windowTimes chunks a b ↔ (∃ c ∈ chunks, t ∈ c.times) ∧ a < t ∧ t ≤ b := by
  rw [windowTimes, (foldl_mergeTimes (fun l hl => ?_) .nil).2]
  · simp only [not_mem_nil, mem_map, exists_exists_and_eq_and, mem_filter, false_or, decide_eq_true_eq]
    constructor
    · rintro ⟨c, hc, ht, hab⟩
      exact ⟨⟨c, hc, ht⟩, hab⟩
    · rintro ⟨⟨c, hc, ht⟩, hab⟩
      exact ⟨c, hc, ht, hab⟩
  · obtain ⟨c, hc, rfl⟩ := mem_map.mp hl
    exact (hcs c hc).ascending.filter _

end Window

variable {chunks : List (Chunk F V)} {pos : F → ℤ} {tm : ℤ} {ur : UnorderedReader F V}

theorem at_init (hcs : ∀ c ∈ chunks, c.WF) {m : ℤ} (hm : ∀ c ∈ chunks, ∀ t ∈ c.times, m < t) :
    (init chunks).At chunks (fun _ => m) m := by
  show List.Forall₂ _ chunks (chunks.map UnorderedColumnReader.init)
  rw [forall₂_map_right_iff, forall₂_same]
  exact fun c hc => UnorderedColumnReader.at_init (hcs c hc) (hm c hc)

variable {f : F} {a b : ℤ}

theorem At.changeColumn (h : ur.At chunks pos tm) (hsorted : ur.times.Pairwise (· < ·)) (ha : ∀ t ∈ ur.times, a < t) :
    (ur.changeColumn f).At chunks pos tm ∧ (ur.changeColumn f).OnColumn chunks f a := by
  refine ⟨forall₂_step h fun c _ r hr => (hr.changeColumn f).1,
    forall₂_step h fun c _ r hr => (hr.changeColumn f).2, ?_⟩
  exact (countLe_eq_zero hsorted ha).symm

theorem At.initTimes (hcs : ∀ c ∈ chunks, c.WF) (h : ur.At chunks pos tm) (hle : tm ≤ b) :
    (ur.initTimes b).At chunks pos b ∧ (ur.initTimes b).times = windowTimes chunks tm b := by
  refine ⟨forall₂_step h fun c hc r hr => (hr.readTime (hcs c hc) hle).2, ?_⟩
  show (ur.readers.map fun r => (r.readTime b).1).foldl mergeTimes [] = _
  rw [map_eq_of_forall₂ h fun c hc r hr => (hr.readTime (hcs c hc) hle).1]
  rfl

omit [LinearOrder F] in
/-- Reading times hands out those of the current column after `a` up to `b`. -/
theorem readTimes_spec (hsorted : ur.times.Pairwise (· < ·)) (hle : a ≤ b) (hofs : ur.ofs = countLe ur.times a) :
    ur.readTimes b = (ur.times.filter (fun t => a < t ∧ t ≤ b), { ur with ofs := countLe ur.times b }) := by
  have hwin := extract_countLe hsorted hle
  have hmono := countLe_mono hsorted hle
  unfold readTimes
  split_ifs with hend
  · -- the next time lies after `b`
    have heq : countLe ur.times a = countLe ur.times b := by
      refine le_antisymm hmono (not_lt.mp fun hlt => ?_)
      have hin : ur.ofs < ur.times.length := hofs ▸ hlt.trans_le (countLe_le hsorted b)
      have hmem : ur.times[ur.ofs] ∈ ur.times.filter (· ≤ b) := by
        rw [← take_countLe hsorted]
        exact mem_take_iff_getElem.mpr ⟨ur.ofs, by omega, rfl⟩
      have hle' := of_decide_eq_true (mem_filter.mp hmem).2
      rw [getElem?_eq_getElem hin, Option.all_some, decide_eq_true_eq] at hend
      omega
    rw [← hwin, heq, extract_of_le _ le_rfl, ← heq, ← hofs]
  · simp only [hofs, hwin]

theorem merge_windows (hcs : ∀ c ∈ chunks, c.WF) {ts : List ℤ} (hts : ts.Pairwise (· < ·))
    (hwin : ∀ t ∈ ts, a < t ∧ t ≤ b) (hcover : ∀ c ∈ chunks, ∀ t ∈ c.times, a < t → t ≤ b → t ∈ ts) (g : ℤ → Option V) :
    MergeHelper.merge (chunks.map fun c =>
        graph (window c f a b) (c.value f)) (graph ts g) =
      graph ts fun t => chunks.foldl (fun acc c => (c.value f t).or acc) (g t) := by
  induction chunks generalizing g with
  | nil => rfl
  | cons c cs ih =>
    have hsub : ∀ t ∈ window c f a b, t ∈ ts := by
      intro t ht
      unfold window at ht
      split_ifs at ht with hl
      · simp only [mem_filter, decide_eq_true_eq] at ht
        exact hcover c (by simp) t ht.1 ht.2.1 ht.2.2
      · simp at ht
    have hpair : (window c f a b).Pairwise (· < ·) := by
      unfold window
      split_ifs
      · exact (hcs c (by simp)).ascending.filter _
      · exact .nil
    have hunion : mergeTimes ts (window c f a b) = ts :=
      mergeTimes_eq hts hpair hts fun t => ⟨.inl, fun h => h.elim id (hsub t)⟩
    have hnull : ∀ t ∈ ts, t ∉ window c f a b → c.value f t = none := by
      intro t ht hnot
      cases hl : c.cols.lookup f with
      | none => exact Chunk.value_of_lookup_none hl t
      | some segs =>
        refine Chunk.value_of_notMem fun hmem => hnot ?_
        simp only [window, hl, Option.isSome_some, if_true, mem_filter, decide_eq_true_eq]
        exact ⟨hmem, hwin t ht⟩
    rw [MergeHelper.merge, map_cons, foldl_cons,
      mergeCol_graph hts hpair (fun t ht hnot => absurd (hsub t ht) hnot) hnull, hunion]
    exact ih (fun c' hc' => hcs c' (mem_cons_of_mem _ hc')) (fun c' hc' => hcover c' (mem_cons_of_mem _ hc')) _

theorem merge_filter_nil (cols : List (TimedCol V)) (col : TimedCol V) :
    MergeHelper.merge (cols.filter fun c => c.length ≠ 0) col = MergeHelper.merge cols col := by
  induction cols generalizing col with
  | nil => rfl
  | cons c cols ih =>
    by_cases hc : c.length = 0
    · obtain rfl := length_eq_zero_iff.mp hc
      rw [filter_cons_of_neg (by simp), ih, MergeHelper.merge, MergeHelper.merge, foldl_cons, mergeCol_nil_right]
    · rw [filter_cons_of_pos (by simpa using hc)]
      exact ih _

/-- **Reading the current column of all files** up to `b`: at every time after the last read, the
value of the newest file that has one. -/
theorem At.read (hcs : ∀ c ∈ chunks, c.WF) (h : ur.At chunks pos tm) (hsorted : ur.times.Pairwise (· < ·))
    (hle : pos f ≤ b) (hf : ur.OnColumn chunks f (pos f))
    (hcover : ∀ c ∈ chunks, ∀ t ∈ c.times, pos f < t → t ≤ b → t ∈ ur.times) :
    (ur.read b).1 = graph (ur.times.filter fun t => pos f < t ∧ t ≤ b) (newestValue chunks f) ∧
      (ur.read b).2.At chunks (update pos f b) tm ∧
      (ur.read b).2.OnColumn chunks f b ∧ (ur.read b).2.times = ur.times := by
  have hboth : List.Forall₂ (fun c r => UnorderedColumnReader.At c pos tm r ∧
      UnorderedColumnReader.OnColumn c f r) chunks ur.readers :=
    forall₂_iff_get.mpr ⟨h.length_eq, fun i h1 h2 =>
      ⟨(forall₂_iff_get.mp h).2 i h1 h2, (forall₂_iff_get.mp hf.readers).2 i h1 h2⟩⟩
  simp only [UnorderedReader.read, readTimes_spec hsorted hle hf.ofs_eq]
  split_ifs with hzero
  · rw [length_eq_zero_iff] at hzero
    refine ⟨by rw [hzero]; rfl, ?_, ⟨hf.readers, rfl⟩, rfl⟩
    -- no file has a row in the window, so every column stands where it stood
    refine forall₂_iff_get.mpr ⟨h.length_eq, fun i h1 h2 =>
      ((forall₂_iff_get.mp h).2 i h1 h2).congr (fun g _ => ?_) rfl⟩
    have hcm := get_mem chunks ⟨i, h1⟩
    by_cases hg : g = f
    · subst hg
      rw [update_self]
      refine countLe_congr (hcs _ hcm).ascending hle fun t ht hwin => ?_
      have hmem : t ∈ ur.times.filter fun t => pos g < t ∧ t ≤ b := by
        simp only [mem_filter, decide_eq_true_eq]
        exact ⟨hcover _ hcm t ht hwin.1 hwin.2, hwin⟩
      rw [hzero] at hmem
      simp at hmem
    · rw [update_of_ne hg]
  · refine ⟨?_, ?_, ⟨?_, rfl⟩, rfl⟩
    · have hcols : (ur.readers.map fun r => (r.read b).1) =
          chunks.map fun c => graph (window c f (pos f) b) (c.value f) :=
        map_eq_of_forall₂ hboth fun c hc r hr => (hr.1.read (hcs c hc) hr.2 hle).1
      rw [merge_filter_nil, hcols, merge_windows hcs (hsorted.filter _)]
      · rfl
      · intro t ht
        simpa using (mem_filter.mp ht).2
      · intro c hc t ht h1 h2
        simp only [mem_filter, decide_eq_true_eq]
        exact ⟨hcover c hc t ht h1 h2, h1, h2⟩
    · exact forall₂_step hboth fun c hc r hr => (hr.1.read (hcs c hc) hr.2 hle).2.1
    · exact forall₂_step hboth fun c hc r hr => (hr.1.read (hcs c hc) hr.2 hle).2.2

end UnorderedReader

end GeminiTS
