import GeminiTS.Immutable.IntegerPreAgg

/-!
# ChunkMeta — the metadata of a chunk in a file

For each chunk a file has the time ranges of its segments and, for each column, where its segments are
(`engine/immutable/tssp_file_meta.go`). The columns are in the order of their names, the time column is the last one.
All columns can be read, or those that are asked for.

* `StoredMeta.read_back` — all columns are read back, and of those asked for the ones there are;
  `onlyTime_readsAll`: asking for the time alone gives all.
-/

namespace GeminiTS.Immutable.FileMeta

open Lib Line List

/-! ### The code -/

/-- Where a segment is. -/
structure Segment where
  offset : Int64
  size : UInt32
  deriving DecidableEq

structure SegmentRange where
  minTime : Int64
  maxTime : Int64
  deriving DecidableEq

structure ColumnMeta where
  name : Bytes
  ty : UInt8
  preAgg : Bytes
  entries : List Segment
  deriving DecidableEq

structure ChunkMeta where
  sid : UInt64
  offset : Int64
  size : UInt32
  columnCount : UInt32
  segCount : UInt32
  timeRange : List SegmentRange
  colMeta : List ColumnMeta
  deriving DecidableEq

/-- `record.TimeField` -/
def timeField : Bytes := [0x74, 0x69, 0x6d, 0x65]

def segmentLen : ℕ := 12

/-- Two columns without names and aggregates and one segment, as `bytes` counts them. -/
def chunkMetaMinLen : ℕ := 8 * 2 + 4 * 3 + 16 + 19 * 2

def zeroPreAgg : Bytes := List.replicate 48 0

/-- Why bytes are refused, with their number. -/
inductive MetaError
  | toSmallerDataForUnmarshal (len : ℕ)
  | tooSmallDataForSegment (len : ℕ)
  | tooSmallerDataForSegmentRange (len : ℕ)
  | tooSmallerDataForSegmentMeta (segs len : ℕ)
  | tooSmallerDataForPreagg (n len : ℕ)
  | tooSmallerDataForColumnNameLength (len : ℕ)
  | tooSmallerDataForColumnName (n len : ℕ)
  | tooSmallerDataForColumn (ofs len : ℕ)
  | panic
  deriving DecidableEq

/-! #### Writing -/

def Segment.marshal (s : Segment) : Bytes := marshalInt64 s.offset ++ beBytes 4 s.size.toNat

def SegmentRange.marshal (sr : SegmentRange) : Bytes := marshalInt64 sr.minTime ++ marshalInt64 sr.maxTime

/-- With the aggregates enabled. -/
def ColumnMeta.marshal (m : ColumnMeta) : Bytes :=
  beBytes 2 m.name.length ++ (m.name ++ ([m.ty] ++ (beBytes 2 m.preAgg.length ++ (m.preAgg ++
    m.entries.flatMap Segment.marshal))))

def ChunkMeta.marshal (m : ChunkMeta) : Bytes :=
  beBytes 8 m.sid.toNat ++ (marshalInt64 m.offset ++ (beBytes 4 m.size.toNat ++ (beBytes 4 m.columnCount.toNat ++
    (beBytes 4 m.segCount.toNat ++ (m.timeRange.flatMap SegmentRange.marshal ++
      m.colMeta.flatMap ColumnMeta.marshal)))))

/-! #### Reading -/

def readInt64 : FrontReader MetaError Int64 := do
  let bs ← takeBytes 8 fun _ => .panic
  return int64OfBytes bs

def readNat (w : ℕ) : FrontReader MetaError ℕ := readUint w fun _ => .panic

def Segment.unmarshal : FrontReader MetaError Segment := do
  require segmentLen .tooSmallDataForSegment
  let offset ← readInt64
  let size ← readNat 4
  return ⟨offset, UInt32.ofNat size⟩

/-- The length that is checked is that of the array, not of its bytes. -/
def SegmentRange.unmarshal : FrontReader MetaError SegmentRange := do
  require 2 .tooSmallerDataForSegmentRange
  let minTime ← readInt64
  let maxTime ← readInt64
  return ⟨minTime, maxTime⟩

def unmarshalEntries (segs : ℕ) : FrontReader MetaError (List Segment) := do
  require (segs * segmentLen) (.tooSmallerDataForSegmentMeta segs)
  times Segment.unmarshal segs

def unmarshalPreagg : FrontReader MetaError Bytes := do
  let n ← readNat 2
  if n = 0 then return zeroPreAgg
  takeBytes n (.tooSmallerDataForPreagg n)

def unmarshalName : FrontReader MetaError Bytes := do
  require 2 .tooSmallerDataForColumnNameLength
  let l ← readNat 2
  require (l + 5) (.tooSmallerDataForColumnName (l + 5))
  takeBytes l fun _ => .panic

/-- A column behind its name. -/
def unmarshalBody (name : Bytes) (segs : ℕ) : FrontReader MetaError ColumnMeta := do
  let ty ← readNat 1
  let preAgg ← unmarshalPreagg
  let entries ← unmarshalEntries segs
  return ⟨name, UInt8.ofNat ty, preAgg, entries⟩

def ColumnMeta.unmarshal (segs : ℕ) : FrontReader MetaError ColumnMeta := do
  let name ← unmarshalName
  unmarshalBody name segs

section

variable {src r bs : Bytes} {n : ℕ} {short : ℕ → MetaError}

theorem length_of_require {u : Unit} (h : require n short src = .ok (u, r)) : r.length = src.length := by
  unfold require at h
  split_ifs at h
  cases h
  rfl

theorem length_of_takeBytes (h : takeBytes n short src = .ok (bs, r)) : r.length + n = src.length := by
  unfold takeBytes at h
  split_ifs at h with hlen
  cases h
  rw [length_drop]
  omega

theorem length_of_readNat {w k : ℕ} (h : readNat w src = .ok (k, r)) : r.length + w = src.length := by
  obtain ⟨bs, r', hbs, hr⟩ := bind_eq_ok.mp
    (show (takeBytes w (fun _ => MetaError.panic) >>= fun bs => pure (beNat bs)) src = _ from h)
  cases hr
  exact length_of_takeBytes hbs

end

/-- The scan for a column stops at this name, which is another one. -/
def stopsAt (column name : Bytes) : Prop := (column < name ∧ column ≠ timeField) ∨ name = timeField

instance (column name : Bytes) : Decidable (stopsAt column name) := inferInstanceAs (Decidable (_ ∨ _))

variable {x name : Bytes} (s : Segment) (entries : List Segment)

theorem length_lt_of_unmarshalName {src rest : Bytes} (h : unmarshalName src = .ok (name, rest)) :
    rest.length < src.length := by
  obtain ⟨_, r1, h1, h⟩ := bind_eq_ok.mp h
  obtain ⟨l, r2, h2, h⟩ := bind_eq_ok.mp h
  obtain ⟨_, r3, h3, h⟩ := bind_eq_ok.mp h
  have hlen1 := length_of_require h1
  have hlen2 := length_of_readNat h2
  have hlen3 := length_of_require h3
  have hlen4 := length_of_takeBytes h
  omega

/-- The column with a name, if there is one; otherwise nothing is read beyond the columns before it. -/
def unmarshalSpecific (segs : ℕ) (column : Bytes) (orig : Bytes) : Except MetaError (Option ColumnMeta × Bytes) :=
  match h : unmarshalName orig with
  | .error e => .error e
  | .ok (name, src) =>
    if name = column then (unmarshalBody name segs src).map fun r => (some r.1, r.2)
    else if stopsAt column name then .ok (none, orig)
    else
      let preAggSize := beNat ((src.drop 1).take 2)
      let ofs := 1 + (2 + preAggSize) + segmentLen * segs
      if src.length < ofs then .error (.tooSmallerDataForColumn ofs src.length)
      else unmarshalSpecific segs column (src.drop ofs)
  termination_by orig.length
  decreasing_by
    have := length_lt_of_unmarshalName h
    rw [length_drop]
    omega

/-- The loop over the names; a name that is the same as the one before it is passed over. -/
def readColumns (segs : ℕ) : Option Bytes → List Bytes → FrontReader MetaError (List ColumnMeta)
  | _, [] => pure []
  | before, column :: columns =>
    if before = some column then readColumns segs (some column) columns
    else do
      let found ← (unmarshalSpecific segs column : FrontReader MetaError (Option ColumnMeta))
      let others ← readColumns segs (some column) columns
      return found.toList ++ others

/-- What stands before the columns. -/
def unmarshalBaseAttr : FrontReader MetaError ChunkMeta := do
  require chunkMetaMinLen .toSmallerDataForUnmarshal
  let sid ← readNat 8
  let offset ← readInt64
  let size ← readNat 4
  let columnCount ← readNat 4
  let segCount ← readNat 4
  let timeRange ← times SegmentRange.unmarshal segCount
  return ⟨UInt64.ofNat sid, offset, UInt32.ofNat size, UInt32.ofNat columnCount, UInt32.ofNat segCount, timeRange, []⟩

def ChunkMeta.unmarshal : FrontReader MetaError ChunkMeta := do
  let m ← unmarshalBaseAttr
  let colMeta ← times (ColumnMeta.unmarshal m.segCount.toNat) m.columnCount.toNat
  return { m with colMeta := colMeta }

def ChunkMeta.unmarshalWithColumns (columns : List Bytes) : FrontReader MetaError ChunkMeta :=
  -- all columns are time
  if columns = [] ∨ columns.head? = some timeField then ChunkMeta.unmarshal
  else do
    let m ← unmarshalBaseAttr
    let colMeta ← readColumns m.segCount.toNat none columns
    return { m with columnCount := UInt32.ofNat colMeta.length, colMeta := colMeta }

/-! ### Reading what was written -/

theorem reads_readInt64 (v : Int64) : Reads readInt64 (marshalInt64 v) v := by
  have h := (Reads.takeBytes (marshalInt64 v) fun _ => MetaError.panic).bind_pure int64OfBytes
  rwa [int64OfBytes_marshalInt64] at h

theorem reads_readNat {w n : ℕ} (h : n < 256 ^ w) : Reads (readNat w) (beBytes w n) n := Reads.uint h _

theorem length_segment : s.marshal.length = segmentLen := by
  rfl

theorem length_entries : (entries.flatMap Segment.marshal).length = entries.length * segmentLen := by
  induction entries with
  | nil => rfl
  | cons s entries ih =>
    rw [flatMap_cons, length_append, ih, length_segment, length_cons, Nat.succ_mul, add_comm]

theorem reads_segment : Reads Segment.unmarshal s.marshal s := by
  have h : Reads (readInt64 >>= fun offset => readNat 4 >>= fun size => pure (⟨offset, UInt32.ofNat size⟩ : Segment))
      s.marshal ⟨s.offset, UInt32.ofNat s.size.toNat⟩ :=
    (reads_readInt64 s.offset).bind ((reads_readNat s.size.toNat_lt).bind_pure _)
  rw [UInt32.ofNat_toNat] at h
  exact h.require_bind (length_segment s).ge _

theorem reads_segmentRange (sr : SegmentRange) : Reads SegmentRange.unmarshal sr.marshal sr := by
  have h : Reads (readInt64 >>= fun minTime => readInt64 >>= fun maxTime => pure ⟨minTime, maxTime⟩)
      sr.marshal sr := (reads_readInt64 sr.minTime).bind ((reads_readInt64 sr.maxTime).bind_pure _)
  refine h.require_bind ?_ _
  rw [SegmentRange.marshal, length_append, length_marshalInt64, length_marshalInt64]
  decide

theorem reads_unmarshalEntries : Reads (unmarshalEntries entries.length) (entries.flatMap Segment.marshal) entries :=
  (Reads.times fun s _ => reads_segment s).require_bind (length_entries entries).ge _

theorem reads_unmarshalPreagg {preAgg : Bytes} (hne : preAgg ≠ []) (hlen : preAgg.length < 2 ^ 16) :
    Reads unmarshalPreagg (beBytes 2 preAgg.length ++ preAgg) preAgg := by
  refine (reads_readNat hlen).bind ?_
  rw [if_neg (mt length_eq_zero_iff.mp hne)]
  exact Reads.takeBytes preAgg _

/-- A column that is written as it can be read. -/
structure ColumnMeta.Fits (segs : ℕ) (c : ColumnMeta) : Prop where
  name : c.name.length < 2 ^ 16
  preAgg_ne : c.preAgg ≠ []
  preAgg : c.preAgg.length < 2 ^ 16
  entries : c.entries.length = segs

/-- A column behind its name. -/
def ColumnMeta.body (c : ColumnMeta) : Bytes :=
  [c.ty] ++ (beBytes 2 c.preAgg.length ++ (c.preAgg ++ c.entries.flatMap Segment.marshal))

section

variable {segs : ℕ} {c : ColumnMeta} (h : c.Fits segs)

include h

theorem reads_unmarshalBody : Reads (unmarshalBody c.name segs) c.body c := by
  have hty : Reads (readNat 1) [c.ty] c.ty.toNat := reads_byte c.ty _
  have hentries := reads_unmarshalEntries c.entries
  rw [h.entries] at hentries
  have hread : Reads (unmarshalBody c.name segs)
      ([c.ty] ++ ((beBytes 2 c.preAgg.length ++ c.preAgg) ++ c.entries.flatMap Segment.marshal))
      ⟨c.name, UInt8.ofNat c.ty.toNat, c.preAgg, c.entries⟩ :=
    hty.bind ((reads_unmarshalPreagg h.preAgg_ne h.preAgg).bind (hentries.bind_pure _))
  rwa [UInt8.ofNat_toNat] at hread

theorem length_body : c.body.length = 1 + (2 + c.preAgg.length) + segmentLen * segs := by
  rw [ColumnMeta.body, length_append, length_append, length_append, length_entries, length_beBytes,
    h.entries, mul_comm segs, length_singleton]
  omega

theorem preAggSize_body (t : Bytes) : beNat (((c.body ++ t).drop 1).take 2) = c.preAgg.length := by
  have hlen := h.preAgg
  rw [ColumnMeta.body, append_assoc, singleton_append, drop_succ_cons, drop_zero,
    append_assoc, take_left' (length_beBytes 2 _), beNat_beBytes hlen]

theorem unmarshalName_marshal (hsegs : 0 < segs) (t : Bytes) :
    unmarshalName (c.marshal ++ t) = .ok (c.name, c.body ++ t) := by
  have hbytes : c.marshal ++ t = beBytes 2 c.name.length ++ (c.name ++ (c.body ++ t)) := by
    rw [ColumnMeta.marshal, ← ColumnMeta.body, append_assoc, append_assoc]
  have hbody := length_body h
  have hseg : segmentLen ≤ segmentLen * segs := Nat.le_mul_of_pos_right _ hsegs
  have hlen : segmentLen = 12 := rfl
  rw [hbytes]
  refine bind_eq_ok.mpr ⟨(), _, if_neg ?_, bind_eq_ok.mpr ⟨_, _, reads_readNat h.name _, bind_eq_ok.mpr
    ⟨(), _, if_neg ?_, Reads.takeBytes c.name _ _⟩⟩⟩
  · rw [length_append, length_beBytes]
    omega
  · rw [length_append, length_append]
    omega

theorem reads_column (hsegs : 0 < segs) : Reads (ColumnMeta.unmarshal segs) c.marshal c :=
  fun t => bind_eq_ok.mpr ⟨c.name, c.body ++ t, unmarshalName_marshal h hsegs t, reads_unmarshalBody h t⟩

end

/-! ### The scan -/

/-- The order of the columns in a file: by name, the time behind all others. -/
def rank (name : Bytes) : Lex (Bool × Bytes) := toLex (decide (name = timeField), name)

theorem rank_injective : Function.Injective rank := fun _ _ h => congrArg (fun r => (ofLex r).2) h

theorem rank_lt {y : Bytes} : rank x < rank y ↔ x ≠ timeField ∧ (y = timeField ∨ x < y) := by
  rw [rank, rank, Prod.Lex.toLex_lt_toLex]
  by_cases hx : x = timeField <;> by_cases hy : y = timeField <;> simp [hx, hy]

theorem rank_le_time (x : Bytes) : rank x ≤ rank timeField := not_lt.mp fun h => (rank_lt.mp h).1 rfl

theorem stopsAt_iff (h : name ≠ x) : stopsAt x name ↔ rank x < rank name := by
  rw [rank_lt]
  constructor
  · rintro (⟨hlt, hx⟩ | rfl)
    · exact ⟨hx, .inr hlt⟩
    · exact ⟨h.symm, .inl rfl⟩
  · rintro ⟨hx, rfl | hlt⟩
    · exact .inr rfl
    · exact .inl ⟨hlt, hx⟩

/-- The columns with one of the names. -/
def asked (names : List Bytes) (cols : List ColumnMeta) : List ColumnMeta := cols.filter fun c => c.name ∈ names

theorem asked_cons_of_lt (names : List Bytes) {cols : List ColumnMeta} (h : ∀ c ∈ cols, rank x < rank c.name) :
    asked (x :: names) cols = asked names cols := by
  refine filter_congr fun c hc => ?_
  rw [decide_eq_decide, mem_cons]
  exact or_iff_right fun heq => (h c hc).ne' (congrArg rank heq)

section

variable {segs : ℕ} (hsegs : 0 < segs)

include hsegs

/-- **The scan for a column**: the column if it is there, and the columns behind its place. -/
theorem unmarshalSpecific_bytes (x t : Bytes) {cols : List ColumnMeta} (hfits : ∀ c ∈ cols, c.Fits segs)
    (hsorted : cols.Pairwise fun c c' => rank c.name < rank c'.name) (hend : ∃ c ∈ cols, rank x ≤ rank c.name) :
    ∃ found left, unmarshalSpecific segs x (cols.flatMap ColumnMeta.marshal ++ t) =
        .ok (found, left.flatMap ColumnMeta.marshal ++ t) ∧
      left.Sublist cols ∧ (∀ c, c ∈ left ↔ c ∈ cols ∧ rank x < rank c.name) ∧
      ∀ names, (∀ y ∈ names, rank x ≤ rank y) → asked (x :: names) cols = found.toList ++ asked names left := by
  induction cols with
  | nil => simp at hend
  | cons c cols ih =>
    obtain ⟨hc, hcols⟩ := forall_mem_cons.mp hfits
    obtain ⟨hbehind, hsorted⟩ := pairwise_cons.mp hsorted
    rw [flatMap_cons, append_assoc, unmarshalSpecific, unmarshalName_marshal hc hsegs]
    dsimp only
    rcases lt_trichotomy (rank c.name) (rank x) with hlt | heq | hgt
    · -- the column is passed over
      have hne : c.name ≠ x := fun h => hlt.ne (congrArg rank h)
      have hend : ∃ c ∈ cols, rank x ≤ rank c.name := ((exists_mem_cons_iff _ _ _).mp hend).resolve_left hlt.not_ge
      obtain ⟨found, left, hread, hsub, hleft, hasked⟩ := ih hcols hsorted hend
      rw [if_neg hne, if_neg (mt (stopsAt_iff hne).mp hlt.not_gt), preAggSize_body hc, ← length_body hc, length_append,
        if_neg (by omega), drop_left]
      refine ⟨found, left, hread, hsub.cons c, fun c' => ?_, fun names hnames => ?_⟩
      · rw [hleft, mem_cons, or_and_right, or_iff_right]
        rintro ⟨rfl, hgt⟩
        exact hlt.not_gt hgt
      · rw [← hasked names hnames, asked, filter_cons_of_neg]
        · rfl
        · simpa [hne] using fun hmem => hlt.not_ge (hnames _ hmem)
    · obtain rfl := rank_injective heq
      rw [if_pos rfl, reads_unmarshalBody hc]
      refine ⟨some c, cols, rfl, sublist_cons_self .., fun c' => ?_, fun names _ => ?_⟩
      · refine ⟨fun h => ⟨mem_cons_of_mem _ h, hbehind c' h⟩, fun ⟨h, hgt⟩ => (mem_cons.mp h).resolve_left ?_⟩
        rintro rfl
        exact hgt.false
      · rw [← asked_cons_of_lt names hbehind, asked, filter_cons_of_pos (by simp)]
        rfl
    · have hne : c.name ≠ x := fun h => hgt.ne' (congrArg rank h)
      have hall : ∀ c' ∈ c :: cols, rank x < rank c'.name :=
        forall_mem_cons.mpr ⟨hgt, fun c' hc' => hgt.trans (hbehind c' hc')⟩
      rw [if_neg hne, if_pos ((stopsAt_iff hne).mpr hgt), ← append_assoc]
      exact ⟨none, c :: cols, rfl, List.Sublist.refl _, fun c' => ⟨fun h => ⟨h, hall c' h⟩, And.left⟩,
        fun names _ => asked_cons_of_lt names hall⟩

/-- **The columns that are asked for**: those there are, in order. -/
theorem readColumns_bytes (t : Bytes) {cols : List ColumnMeta} (hfits : ∀ c ∈ cols, c.Fits segs)
    (hsorted : cols.Pairwise fun c c' => rank c.name < rank c'.name) {names : List Bytes}
    (hnames : names.Pairwise fun x y => rank x ≤ rank y) {before : Option Bytes}
    (hbefore : ∀ b, before = some b → ∀ c ∈ cols, rank b < rank c.name)
    (hend : ∀ x ∈ names, before = some x ∨ ∃ c ∈ cols, rank x ≤ rank c.name) :
    ∃ rest, readColumns segs before names (cols.flatMap ColumnMeta.marshal ++ t) = .ok (asked names cols, rest) := by
  induction names generalizing cols before with
  | nil =>
    refine ⟨cols.flatMap ColumnMeta.marshal ++ t, ?_⟩
    rw [asked, filter_eq_nil_iff.mpr (by simp)]
    rfl
  | cons x names ih =>
    obtain ⟨hx, hnames⟩ := pairwise_cons.mp hnames
    rw [readColumns]
    split_ifs with hsame
    · -- the name comes again, and its column has been passed
      rw [asked_cons_of_lt names (hbefore x hsame), ← hsame]
      exact ih hfits hsorted hnames hbefore fun y hy => hend y (mem_cons_of_mem _ hy)
    · obtain ⟨found, left, hread, hsub, hleft, hasked⟩ :=
        unmarshalSpecific_bytes hsegs x t hfits hsorted ((hend x mem_cons_self).resolve_left hsame)
      obtain ⟨rest, hothers⟩ : ∃ rest, readColumns segs (some x) names (left.flatMap ColumnMeta.marshal ++ t) =
          .ok (asked names left, rest) := by
        refine ih (fun c hc => hfits c (hsub.subset hc)) (hsorted.sublist hsub) hnames ?_ fun y hy => ?_
        · rintro b ⟨⟩ c hc
          exact ((hleft c).mp hc).2
        · rcases (hx y hy).eq_or_lt with heq | hlt
          · exact .inl (congrArg some (rank_injective heq))
          · obtain ⟨c, hc, hle⟩ : ∃ c ∈ cols, rank y ≤ rank c.name := by
              refine (hend y (mem_cons_of_mem _ hy)).elim (fun hb => ?_) id
              obtain ⟨c, hc, -⟩ := (hend x mem_cons_self).resolve_left hsame
              exact ⟨c, hc, (hbefore y hb c hc).le⟩
            exact .inr ⟨c, (hleft c).mpr ⟨hc, hlt.trans_le hle⟩, hle⟩
      rw [hasked names hx]
      exact ⟨rest, bind_eq_ok.mpr ⟨found, _, hread, bind_eq_ok.mpr ⟨_, rest, hothers, rfl⟩⟩⟩

end

/-! ### The metadata of a file -/

theorem length_column_ge {c : ColumnMeta} (h : c.entries ≠ []) : 17 + c.name.length ≤ c.marshal.length := by
  have hpos := length_pos_iff.mpr h
  simp only [ColumnMeta.marshal, length_append, length_beBytes, length_singleton, length_entries, segmentLen]
  omega

/-- A column besides the time, and one segment, are enough for every reader. -/
theorem ChunkMeta.minLen_of_column {m : ChunkMeta} {c time : ColumnMeta} {others : List ColumnMeta}
    (hcols : m.colMeta = c :: others ++ [time]) (htime : time.name = timeField)
    (hentries : ∀ c ∈ m.colMeta, c.entries ≠ []) (hranges : m.timeRange ≠ []) :
    chunkMetaMinLen ≤ m.marshal.length := by
  obtain ⟨range, ranges, hranges⟩ := exists_cons_of_ne_nil hranges
  have hfirst := length_column_ge (hentries c (by simp [hcols]))
  have hlast := length_column_ge (hentries time (by simp [hcols]))
  have hname : time.name.length = 4 := congrArg length htime
  simp only [ChunkMeta.marshal, hcols, hranges, SegmentRange.marshal, flatMap_append, flatMap_cons, flatMap_nil,
    length_append, length_beBytes, length_marshalInt64, length_nil, chunkMetaMinLen]
  omega

/-- **What a file has**: the columns in the order of their names, then the time; as many bytes as every reader asks for,
which there are when there is a column besides the time (`ChunkMeta.minLen_of_column`). -/
structure StoredMeta extends ChunkMeta where
  others : List ColumnMeta
  time : ColumnMeta
  colMeta_eq : colMeta = others ++ [time]
  sorted : others.Pairwise fun c c' => c.name < c'.name
  others_name : ∀ c ∈ others, c.name ≠ timeField
  time_name : time.name = timeField
  columnCount_eq : columnCount.toNat = colMeta.length
  segCount_eq : segCount.toNat = timeRange.length
  segments : 0 < timeRange.length
  fits : ∀ c ∈ colMeta, c.Fits segCount.toNat
  minLen : chunkMetaMinLen ≤ toChunkMeta.marshal.length

/-- Names in order, the time behind them any number of times. -/
structure Request where
  names : List Bytes
  times : ℕ
  sorted : names.Pairwise (· ≤ ·)
  noTime : timeField ∉ names

def Request.columns (q : Request) : List Bytes := q.names ++ List.replicate q.times timeField

namespace StoredMeta

variable (x : StoredMeta)

/-- The bytes before the columns. -/
def base : Bytes :=
  beBytes 8 x.sid.toNat ++ (marshalInt64 x.offset ++ (beBytes 4 x.size.toNat ++ (beBytes 4 x.columnCount.toNat ++
    (beBytes 4 x.segCount.toNat ++ x.timeRange.flatMap SegmentRange.marshal))))

theorem marshal_eq : x.marshal = x.base ++ x.colMeta.flatMap ColumnMeta.marshal := by
  rw [ChunkMeta.marshal, base]
  simp only [append_assoc]

theorem unmarshalBaseAttr_bytes (t : Bytes) : unmarshalBaseAttr (x.marshal ++ t) =
      .ok ({ x.toChunkMeta with colMeta := [] }, x.colMeta.flatMap ColumnMeta.marshal ++ t) := by
  have hranges : Reads (times SegmentRange.unmarshal x.timeRange.length) _ _ :=
    Reads.times fun sr _ => reads_segmentRange sr
  rw [← x.segCount_eq] at hranges
  have hread : Reads (do
      let sid ← readNat 8
      let offset ← readInt64
      let size ← readNat 4
      let columnCount ← readNat 4
      let segCount ← readNat 4
      let timeRange ← times SegmentRange.unmarshal segCount
      return (⟨UInt64.ofNat sid, offset, UInt32.ofNat size, UInt32.ofNat columnCount, UInt32.ofNat segCount, timeRange,
        []⟩ : ChunkMeta)) x.base
      ⟨UInt64.ofNat x.sid.toNat, x.offset, UInt32.ofNat x.size.toNat, UInt32.ofNat x.columnCount.toNat,
        UInt32.ofNat x.segCount.toNat, x.timeRange, []⟩ :=
    (reads_readNat x.sid.toNat_lt).bind ((reads_readInt64 x.offset).bind ((reads_readNat x.size.toNat_lt).bind
      ((reads_readNat x.columnCount.toNat_lt).bind ((reads_readNat x.segCount.toNat_lt).bind (hranges.bind_pure _)))))
  rw [UInt64.ofNat_toNat, UInt32.ofNat_toNat, UInt32.ofNat_toNat, UInt32.ofNat_toNat] at hread
  have hmin := x.minLen
  refine bind_eq_ok.mpr ⟨(), _, if_neg ?_, ?_⟩
  · rw [length_append]
    omega
  · rw [marshal_eq, append_assoc]
    exact hread _

theorem segs_pos : 0 < x.segCount.toNat := x.segCount_eq ▸ x.segments

theorem unmarshal_bytes (t : Bytes) : ChunkMeta.unmarshal (x.marshal ++ t) = .ok (x.toChunkMeta, t) := by
  have hcols : Reads (times (ColumnMeta.unmarshal x.segCount.toNat) x.colMeta.length) _ _ :=
    Reads.times fun c hc => reads_column (x.fits c hc) x.segs_pos
  rw [← x.columnCount_eq] at hcols
  exact bind_eq_ok.mpr ⟨_, _, x.unmarshalBaseAttr_bytes t, bind_eq_ok.mpr ⟨_, _, hcols t, rfl⟩⟩

/-- The columns a request gets: with the time alone, all. -/
def answer (q : Request) : List ColumnMeta := if q.names = [] then x.colMeta else asked q.columns x.colMeta

theorem sorted_colMeta : x.colMeta.Pairwise fun c c' => rank c.name < rank c'.name := by
  rw [x.colMeta_eq, pairwise_append]
  refine ⟨?_, pairwise_singleton .., fun c hc c' hc' => ?_⟩
  · exact x.sorted.imp_of_mem fun hc _ hlt => rank_lt.mpr ⟨x.others_name _ hc, .inr hlt⟩
  · rw [mem_singleton.mp hc', x.time_name]
    exact rank_lt.mpr ⟨x.others_name c hc, .inl rfl⟩

theorem unmarshalWithColumns_bytes {q : Request} (hq : q.names ≠ []) (t : Bytes) :
    ∃ rest, ChunkMeta.unmarshalWithColumns q.columns (x.marshal ++ t) = .ok ({ x.toChunkMeta with
        columnCount := UInt32.ofNat (asked q.columns x.colMeta).length
        colMeta := asked q.columns x.colMeta }, rest) := by
  obtain ⟨n, names, hnames⟩ := exists_cons_of_ne_nil hq
  have hhead : ¬ (q.columns = [] ∨ q.columns.head? = some timeField) := by
    rw [Request.columns, hnames]
    rintro (h | h)
    · cases h
    · exact q.noTime (Option.some.inj h ▸ hnames ▸ mem_cons_self)
  have hsorted : q.columns.Pairwise fun x y => rank x ≤ rank y := by
    rw [Request.columns, pairwise_append]
    refine ⟨?_, pairwise_replicate.mpr (.inr le_rfl), fun x _ y hy => (mem_replicate.mp hy).2 ▸ rank_le_time x⟩
    refine q.sorted.imp_of_mem fun hx _ hle => hle.eq_or_lt.elim (fun h => (congrArg rank h).le) fun hlt => ?_
    exact (rank_lt.mpr ⟨fun h => q.noTime (h ▸ hx), .inr hlt⟩).le
  have htime : x.time ∈ x.colMeta := x.colMeta_eq ▸ mem_append_right _ (mem_singleton_self _)
  obtain ⟨rest, hread⟩ := readColumns_bytes x.segs_pos t x.fits x.sorted_colMeta hsorted
    (fun b (hb : none = some b) => nomatch hb) fun y _ => .inr ⟨x.time, htime, x.time_name ▸ rank_le_time y⟩
  refine ⟨rest, ?_⟩
  rw [ChunkMeta.unmarshalWithColumns, if_neg hhead]
  exact bind_eq_ok.mpr ⟨_, _, x.unmarshalBaseAttr_bytes t, bind_eq_ok.mpr ⟨_, rest, hread, rfl⟩⟩

/-- **What was written is read back**, and of the columns asked for those there are: all of them, if the time alone is
asked for. -/
theorem read_back (q : Request) (t : Bytes) : ChunkMeta.unmarshal (x.marshal ++ t) = .ok (x.toChunkMeta, t) ∧
      ∃ m rest, ChunkMeta.unmarshalWithColumns q.columns (x.marshal ++ t) = .ok (m, rest) ∧
        m.sid = x.sid ∧ m.offset = x.offset ∧ m.size = x.size ∧ m.segCount = x.segCount ∧ m.timeRange = x.timeRange ∧
        m.colMeta = x.answer q := by
  refine ⟨x.unmarshal_bytes t, ?_⟩
  by_cases hq : q.names = []
  · have hall : q.columns = [] ∨ q.columns.head? = some timeField := by
      rw [Request.columns, hq]
      cases q.times with
      | zero => exact .inl rfl
      | succ k => exact .inr rfl
    refine ⟨x.toChunkMeta, t, ?_, rfl, rfl, rfl, rfl, rfl, (if_pos hq).symm⟩
    rw [ChunkMeta.unmarshalWithColumns, if_pos hall, x.unmarshal_bytes]
  · obtain ⟨rest, hread⟩ := x.unmarshalWithColumns_bytes hq t
    exact ⟨_, rest, hread, rfl, rfl, rfl, rfl, rfl, (if_neg hq).symm⟩

end StoredMeta

/-- A column of one segment. -/
def oneSegment (name : Bytes) : ColumnMeta := ⟨name, 1, [1], [⟨16, 8⟩]⟩

theorem oneSegment_fits (h : name.length < 2 ^ 16) : (oneSegment name).Fits 1 where
  name := h
  preAgg_ne := cons_ne_nil _ _
  preAgg := (by decide : 1 < 2 ^ 16)
  entries := rfl

/-- A field and the time. -/
def fieldAndTime : StoredMeta where
  toChunkMeta := ⟨1, 0, 40, 2, 1, [⟨10, 20⟩], [oneSegment [0x61], oneSegment timeField]⟩
  others := [oneSegment [0x61]]
  time := oneSegment timeField
  colMeta_eq := rfl
  sorted := pairwise_singleton ..
  others_name := by decide
  time_name := rfl
  columnCount_eq := rfl
  segCount_eq := rfl
  segments := by decide
  fits := forall_mem_cons.mpr ⟨oneSegment_fits (by decide), forall_mem_singleton.mpr (oneSegment_fits (by decide))⟩
  minLen := by decide

def onlyTime : Request where
  names := []
  times := 1
  sorted := .nil
  noTime := not_mem_nil

/-- **The time alone**: all columns come back, not the one that is asked for; and the metadata that has no other column
is too short to be read. -/
theorem onlyTime_readsAll :
    (∃ m rest, ChunkMeta.unmarshalWithColumns onlyTime.columns fieldAndTime.marshal = .ok (m, rest) ∧
      m.colMeta ≠ asked onlyTime.columns fieldAndTime.colMeta) ∧
    ChunkMeta.unmarshal (ChunkMeta.marshal ⟨1, 0, 20, 1, 1, [⟨10, 20⟩], [oneSegment timeField]⟩) =
      .error (.toSmallerDataForUnmarshal 66) := by
  refine ⟨⟨fieldAndTime.toChunkMeta, [], ?_, by decide⟩, by rfl⟩
  have h := fieldAndTime.unmarshal_bytes []
  rwa [append_nil] at h

end GeminiTS.Immutable.FileMeta
