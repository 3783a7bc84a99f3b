import GeminiTS.Lib.Extreme
import GeminiTS.Lib.Float64
import GeminiTS.Line.RowRoundTrip

/-!
# IntegerPreAgg — the stored aggregates of an integer column

A chunk stores the minimum, the maximum, the sum and the number of the values of a column
(`engine/immutable/pre_aggregation.go`), and a compaction makes those of the new chunk from those of the old ones
(`mergeIntegerPreAgg` of `stream_compact.go`). Minima and maxima are handed on as floats.

* `IntegerMerge.faithful_iff` — when the merged aggregates are those of all rows; `mergedMax_rounded` is a maximum that
  is not.
-/

namespace GeminiTS.Immutable

open Lib Line List Int64

/-! ### The code -/

/-- The aggregates, with the times of the minimum and the maximum. -/
structure IntegerPreAgg where
  min : Int64
  max : Int64
  minT : Int64
  maxT : Int64
  sum : Int64
  count : Int64
  deriving DecidableEq

/-- `UnmarshalInt64` of eight bytes. -/
def int64OfBytes (bs : Bytes) : Int64 := Int64.ofBitVec (unZigZag (BitVec.ofNat 64 (beNat bs)))

/-- The number at a position of a list of numbers. -/
def int64At (src : Bytes) (i : ℕ) : Int64 := int64OfBytes ((src.drop (8 * i)).take 8)

def preAggOnlyOneRow (src : Bytes) : Bool := src.length = 16

namespace IntegerPreAgg

def reset : IntegerPreAgg := ⟨Int64.maxValue, Int64.minValue, 0, 0, 0, 0⟩

def values (m : IntegerPreAgg) : List Int64 := [m.min, m.max, m.minT, m.maxT, m.sum, m.count]

def marshal (m : IntegerPreAgg) : Bytes :=
  if m.count = 1 then marshalInt64 m.min ++ marshalInt64 m.minT else m.values.flatMap marshalInt64

def unmarshal (src : Bytes) : Option IntegerPreAgg :=
  if preAggOnlyOneRow src then
    let v := int64At src 0
    let t := int64At src 1
    some ⟨v, v, t, t, v, 1⟩
  else if src.length < 48 then none
  else some ⟨int64At src 0, int64At src 1, int64At src 2, int64At src 3, int64At src 4, int64At src 5⟩

/-- The body of the loop of `addValues`, for a row with a value. -/
def addValue (m : IntegerPreAgg) (v t : Int64) : IntegerPreAgg := { m with
    min := if v < m.min then v else m.min
    minT := if v < m.min then t else m.minT
    max := if v > m.max then v else m.max
    maxT := if v > m.max then t else m.maxT
    sum := m.sum + v }

def addValues (m : IntegerPreAgg) (col : List (Option Int64)) (times : List Int64) : IntegerPreAgg :=
  let agg := (col.zip times).foldl (fun m row => row.1.elim m fun v => m.addValue v row.2) m
  { agg with count := agg.count + Int64.ofNat col.reduceOption.length }

section

-- what the machine makes of a float that is no 64-bit integer
variable (overflow : Int64)

/-- `int64(value)`. -/
def ofFloat (value : ℤ) : Int64 := if -2 ^ 63 ≤ value ∧ value < 2 ^ 63 then Int64.ofInt value else overflow

def addMin (m : IntegerPreAgg) (value : ℤ) (tm : Int64) : IntegerPreAgg :=
  let v := ofFloat overflow value
  if v < m.min then { m with min := v, minT := tm }
  else if m.min = v then if tm < m.minT then { m with minT := tm } else m
  else m

def addMax (m : IntegerPreAgg) (value : ℤ) (tm : Int64) : IntegerPreAgg :=
  let v := ofFloat overflow value
  if v > m.max then { m with max := v, maxT := tm }
  else if m.max = v then if tm < m.maxT then { m with maxT := tm } else m
  else m

def merge (m other : IntegerPreAgg) : IntegerPreAgg :=
  let m := m.addMin overflow (toFloat other.min.toInt) other.minT
  let m := m.addMax overflow (toFloat other.max.toInt) other.maxT
  { m with sum := m.sum + other.sum, count := m.count + other.count }

end

end IntegerPreAgg

open IntegerPreAgg

/-- `mergeIntegerPreAgg` within the limit of segments: the metadata of each chunk, if it has the column. The first chunk
is read into the result. -/
def mergeIntegerPreAgg (overflow : Int64) : List (Option Bytes) → Option Bytes
  | [] => some reset.marshal
  | first :: later => do
    let agg ← first.elim (some reset) unmarshal
    let agg ← later.foldlM (fun agg src => src.elim (some agg) fun src => (unmarshal src).map (agg.merge overflow)) agg
    return agg.marshal

/-! ### Chunks -/

/-- A segment of an integer column with its times. -/
structure IntSegment where
  times : List Int64
  col : List (Option Int64)
  aligned : col.length = times.length

/-- The segments of the column in one chunk. -/
abbrev IntChunk := List IntSegment

def IntChunk.values (c : IntChunk) : List Int64 := c.flatMap fun s => s.col.reduceOption

/-- The aggregates that are stored with a chunk. -/
def IntChunk.preAgg (c : IntChunk) : IntegerPreAgg := c.foldl (fun m s => m.addValues s.col s.times) reset

/-- Aggregates are those of a list of values. -/
structure IntegerPreAgg.Sums (m : IntegerPreAgg) (vs : List Int64) : Prop where
  min : m.min = extreme (· < ·) Int64.maxValue vs
  max : m.max = extreme (· > ·) Int64.minValue vs
  sum : m.sum = vs.foldl (· + ·) 0
  count : m.count = Int64.ofNat vs.length

/-! ### Rows -/

theorem proj_foldl {α β γ M : Type*} (proj : M → γ) {add : M → α × β → M} {g : γ → α → γ}
    (h : ∀ m p, proj (add m p) = g (proj m) p.1) (rows : List (α × β)) (m : M) :
    proj (rows.foldl add m) = (rows.map Prod.fst).foldl g (proj m) := by
  rw [foldl_map]
  exact (foldl_hom proj fun m p => (h m p).symm).symm

/-- The rows of a segment that have a value, with their times. -/
def valueRows {α : Type} (col : List (Option α)) (times : List Int64) : List (α × Int64) :=
  (col.zip times).filterMap fun row => row.1.map (·, row.2)

theorem map_fst_valueRows {α : Type} {col : List (Option α)} {times : List Int64} (h : col.length = times.length) :
    (valueRows col times).map Prod.fst = col.reduceOption := by
  conv_rhs => rw [← map_fst_zip h.le, reduceOption, filterMap_map]
  rw [valueRows, map_filterMap]
  refine filterMap_congr fun row _ => ?_
  obtain ⟨v, t⟩ := row
  cases v <;> rfl

theorem foldl_valueRows (m : IntegerPreAgg) (col : List (Option Int64)) (times : List Int64) :
    (col.zip times).foldl (fun m row => row.1.elim m fun v => m.addValue v row.2) m =
      (valueRows col times).foldl (fun m p => m.addValue p.1 p.2) m := by
  rw [valueRows, foldl_filterMap]
  congr 1
  funext m row
  cases row.1 <;> rfl

/-! ### Numbers in bytes -/

@[simp] theorem length_marshalInt64 (v : Int64) : (marshalInt64 v).length = 8 := length_beBytes 8 _

theorem int64OfBytes_marshalInt64 (v : Int64) : int64OfBytes (marshalInt64 v) = v := by
  have hlt : (zigZag v.toBitVec).toNat < 256 ^ 8 := (zigZag v.toBitVec).isLt
  rw [int64OfBytes, marshalInt64, beNat_beBytes hlt, BitVec.ofNat_toNat, BitVec.setWidth_eq, unZigZag_zigZag,
    ofBitVec_toBitVec]

theorem length_flatMap_marshalInt64 (vs : List Int64) : (vs.flatMap marshalInt64).length = 8 * vs.length := by
  simp [mul_comm]

theorem int64At_flatMap {vs : List Int64} {i : ℕ} {v : Int64} (h : vs[i]? = some v) :
    int64At (vs.flatMap marshalInt64) i = v := by
  induction vs generalizing i with
  | nil => cases h
  | cons w vs ih =>
    have hlen := length_marshalInt64 w
    cases i with
    | zero =>
      cases h
      rw [int64At, flatMap_cons, drop_zero, take_left' hlen, int64OfBytes_marshalInt64]
    | succ i =>
      rw [← ih h, int64At, flatMap_cons, drop_append, drop_eq_nil_of_le (by omega)]
      congr 3

namespace IntegerPreAgg

variable {m : IntegerPreAgg}

theorem unmarshal_marshal_of_ne (h : m.count ≠ 1) : unmarshal m.marshal = some m := by
  have hlen : (m.values.flatMap marshalInt64).length = 48 := length_flatMap_marshalInt64 m.values
  rw [marshal, if_neg h, unmarshal, preAggOnlyOneRow, hlen]
  simp only [Nat.reduceEqDiff, decide_false, Bool.false_eq_true, if_false, lt_irrefl]
  rw [int64At_flatMap rfl, int64At_flatMap rfl, int64At_flatMap rfl,
    int64At_flatMap rfl, int64At_flatMap rfl, int64At_flatMap rfl]

theorem unmarshal_marshal_of_eq (h : m.count = 1) :
    unmarshal m.marshal = some ⟨m.min, m.min, m.minT, m.minT, m.min, 1⟩ := by
  have hbytes : marshalInt64 m.min ++ marshalInt64 m.minT = [m.min, m.minT].flatMap marshalInt64 := by
    rw [flatMap_cons, flatMap_singleton]
  have hlen : ([m.min, m.minT].flatMap marshalInt64).length = 16 := length_flatMap_marshalInt64 _
  rw [marshal, if_pos h, hbytes, unmarshal, preAggOnlyOneRow, hlen]
  simp only [decide_true, if_true]
  rw [int64At_flatMap rfl, int64At_flatMap rfl]

/-! ### Values -/

theorem sums_reset : reset.Sums [] := ⟨rfl, rfl, rfl, rfl⟩

theorem foldl_add (s : Int64) (vs : List Int64) : vs.foldl (· + ·) s = s + vs.foldl (· + ·) 0 := by
  have h := @foldl_assoc Int64 (· + ·) _ vs s 0
  rwa [Int64.add_zero] at h

variable {col : List (Option Int64)} {vs times : List Int64}

theorem addValues_eq (h : col.length = times.length) (m : IntegerPreAgg) :
    let agg := m.addValues col times
    agg.min = extreme (· < ·) m.min col.reduceOption ∧ agg.max = extreme (· > ·) m.max col.reduceOption ∧
      agg.sum = col.reduceOption.foldl (· + ·) m.sum ∧ agg.count = m.count + ofNat col.reduceOption.length := by
  rw [addValues, foldl_valueRows, ← map_fst_valueRows h]
  refine ⟨proj_foldl IntegerPreAgg.min (fun _ _ => rfl) _ m, proj_foldl IntegerPreAgg.max (fun _ _ => rfl) _ m,
    proj_foldl IntegerPreAgg.sum (fun _ _ => rfl) _ m, congrArg (· + _) ?_⟩
  refine (proj_foldl IntegerPreAgg.count ?_ _ m).trans (foldl_fixed _)
  exact fun _ _ => rfl

theorem Sums.addValues (h : m.Sums vs) (hlen : col.length = times.length) :
    (m.addValues col times).Sums (vs ++ col.reduceOption) := by
  obtain ⟨hmin, hmax, hsum, hcount⟩ := addValues_eq hlen m
  refine ⟨?_, ?_, ?_, ?_⟩
  · rw [hmin, extreme_append, ← h.min]
  · rw [hmax, extreme_append, ← h.max]
  · rw [hsum, foldl_append, ← h.sum]
  · rw [hcount, length_append, ofNat_add, ← h.count]

theorem ofNat_eq_one_iff {n : ℕ} (h : n < 2 ^ 63) : ofNat n = 1 ↔ n = 1 := by
  rw [← toInt_inj, toInt_ofNat_of_lt h]
  exact Int.ofNat_inj

theorem extreme_singleton (v : Int64) : extreme (· < ·) maxValue [v] = v ∧ extreme (· > ·) minValue [v] = v := by
  refine ⟨(extreme_eq_iff _).mpr ⟨.inr mem_cons_self, ?_, ?_⟩, (extreme_eq_iff _).mpr ⟨.inr mem_cons_self, ?_, ?_⟩⟩
  · exact Int64.not_lt.mpr (Int64.le_maxValue v)
  · exact fun w hw => mem_singleton.mp hw ▸ Int64.lt_irrefl
  · exact Int64.not_lt.mpr (Int64.minValue_le v)
  · exact fun w hw => mem_singleton.mp hw ▸ Int64.lt_irrefl

/-- **Reading stored aggregates** gives those of the same values. -/
theorem Sums.unmarshal_marshal (h : m.Sums vs) (hlen : vs.length < 2 ^ 63) :
    ∃ m', unmarshal m.marshal = some m' ∧ m'.Sums vs := by
  by_cases hone : m.count = 1
  · obtain ⟨v, rfl⟩ : ∃ v, vs = [v] := by
      rw [h.count, ofNat_eq_one_iff hlen] at hone
      exact length_eq_one_iff.mp hone
    obtain ⟨hlow, hhigh⟩ := extreme_singleton v
    have hv : m.min = v := h.min.trans hlow
    refine ⟨_, unmarshal_marshal_of_eq hone, ?_, ?_, ?_, rfl⟩
    · exact h.min
    · exact hv.trans hhigh.symm
    · exact hv.trans (Int64.zero_add v).symm
  · exact ⟨m, unmarshal_marshal_of_ne hone, h⟩

/-! ### Merging -/

section

variable (overflow : Int64)

/-- What is left of a value that is handed on as a float. -/
def roundTrip (v : Int64) : Int64 := ofFloat overflow (toFloat v.toInt)

theorem addMin_eq (m : IntegerPreAgg) (value : ℤ) (tm : Int64) : m.addMin overflow value tm =
    { m with min := keep (· < ·) m.min (ofFloat overflow value), minT := (m.addMin overflow value tm).minT } := by
  unfold addMin keep
  extract_lets v
  split_ifs <;> rfl

theorem addMax_eq (m : IntegerPreAgg) (value : ℤ) (tm : Int64) : m.addMax overflow value tm =
    { m with max := keep (· > ·) m.max (ofFloat overflow value), maxT := (m.addMax overflow value tm).maxT } := by
  unfold addMax keep
  extract_lets v
  split_ifs <;> rfl

theorem merge_eq (m : IntegerPreAgg) {other : IntegerPreAgg} {vs : List Int64} (h : other.Sums vs) :
    (m.merge overflow other).min = keep (· < ·) m.min (roundTrip overflow (extreme (· < ·) maxValue vs)) ∧
      (m.merge overflow other).max = keep (· > ·) m.max (roundTrip overflow (extreme (· > ·) minValue vs)) ∧
      (m.merge overflow other).sum = vs.foldl (· + ·) m.sum ∧
      (m.merge overflow other).count = m.count + ofNat vs.length := by
  rw [← h.min, ← h.max, foldl_add, ← h.sum, ← h.count, merge, addMax_eq, addMin_eq]
  exact ⟨rfl, rfl, rfl, rfl⟩

end

end IntegerPreAgg

/-! ### The compaction -/

/-- The smallest value, or the largest number there is. -/
def lowest (vs : List Int64) : Int64 := extreme (· < ·) Int64.maxValue vs

/-- The largest value, or the smallest number there is. -/
def highest (vs : List Int64) : Int64 := extreme (· > ·) Int64.minValue vs

theorem IntChunk.sums_preAgg (c : IntChunk) : c.preAgg.Sums c.values := by
  induction c using reverseRecOn with
  | nil => exact sums_reset
  | append_singleton c s ih =>
    rw [IntChunk.preAgg, foldl_concat, IntChunk.values, flatMap_append, flatMap_singleton]
    exact ih.addValues s.aligned

theorem flatMap_elim_nil {α β : Type*} (f : α → List β) (cs : List (Option α)) :
    (cs.flatMap fun c => c.elim [] f) = cs.reduceOption.flatMap f := by
  induction cs with
  | nil => rfl
  | cons c cs ih =>
    cases c with
    | none =>
      rw [flatMap_cons, ih]
      rfl
    | some c =>
      rw [flatMap_cons, ih]
      rfl

theorem foldlM_sources {C M S : Type*} {read : S → Option M} (f : M → M → M) {src : C → S} {agg : C → M}
    {cs : List (Option C)} (h : ∀ c, some c ∈ cs → read (src c) = some (agg c)) (m : M) :
    (cs.map (Option.map src)).foldlM (fun m s => s.elim (some m) fun s => (read s).map (f m)) m =
      some (cs.reduceOption.foldl (fun m c => f m (agg c)) m) := by
  induction cs generalizing m with
  | nil => rfl
  | cons c cs ih =>
    have hrest := ih fun c hc => h c (mem_cons_of_mem _ hc)
    cases c with
    | none => exact hrest m
    | some c =>
      rw [map_cons, foldlM_cons, Option.map_some, Option.elim_some, h c mem_cons_self]
      exact hrest _

/-- What is read of a chunk. -/
def IntChunk.stored (c : IntChunk) : IntegerPreAgg := (unmarshal c.preAgg.marshal).getD reset

theorem IntChunk.stored_spec {c : IntChunk} (h : c.values.length < 2 ^ 63) :
    unmarshal c.preAgg.marshal = some c.stored ∧ c.stored.Sums c.values := by
  obtain ⟨m, hm, hsums⟩ := c.sums_preAgg.unmarshal_marshal h
  rw [IntChunk.stored, hm]
  exact ⟨rfl, hsums⟩

/-- The chunks that are compacted: the column of each one that has it. There are less than `2 ^ 63` values. -/
structure IntegerMerge where
  chunks : List (Option IntChunk)
  fits : (chunks.flatMap fun c => c.elim [] IntChunk.values).length < 2 ^ 63

namespace IntegerMerge

variable (x : IntegerMerge) (overflow : Int64)

/-- The values of all chunks. -/
def values : List Int64 := x.chunks.flatMap fun c => c.elim [] IntChunk.values

/-- The segments of all chunks. -/
def segments : List IntSegment := x.chunks.flatMap fun c => c.getD []

/-- The aggregates of all rows at once. -/
def whole : IntegerPreAgg := reset.addValues (x.segments.flatMap IntSegment.col) (x.segments.flatMap IntSegment.times)

/-- The metadata that the compaction writes. -/
def metadata : Option Bytes := mergeIntegerPreAgg overflow (x.chunks.map (Option.map fun c => c.preAgg.marshal))

/-- The metadata says what the aggregates of all rows say. -/
def Faithful : Prop :=
  ∃ src m, x.metadata overflow = some src ∧ unmarshal src = some m ∧ m.min = x.whole.min ∧ m.max = x.whole.max ∧
    m.sum = x.whole.sum ∧ m.count = x.whole.count

/-- The values of the first chunk. -/
def first : List Int64 := (x.chunks.head?.bind fun c => c).elim [] IntChunk.values

/-- The other chunks that have the column. -/
def later : List IntChunk := x.chunks.tail.reduceOption

/-- The minimum survives: it is the first chunk's or that of a later one after rounding, and no rounded minimum is
below it. A chunk without values counts as the largest number. -/
def LowKept : Prop :=
  (lowest x.values = lowest x.first ∨ ∃ c ∈ x.later, roundTrip overflow (lowest c.values) = lowest x.values) ∧
    ∀ c ∈ x.later, lowest x.values ≤ roundTrip overflow (lowest c.values)

/-- The maximum survives. -/
def HighKept : Prop :=
  (highest x.values = highest x.first ∨ ∃ c ∈ x.later, roundTrip overflow (highest c.values) = highest x.values) ∧
    ∀ c ∈ x.later, roundTrip overflow (highest c.values) ≤ highest x.values

variable {x overflow}

theorem values_eq : x.values = x.first ++ x.later.flatMap IntChunk.values := by
  rw [values, first, later]
  cases x.chunks with
  | nil => rfl
  | cons c cs =>
    rw [flatMap_cons, flatMap_elim_nil]
    rfl

theorem sums_whole : x.whole.Sums x.values := by
  have hlen (segs : List IntSegment) :
      (segs.flatMap IntSegment.col).length = (segs.flatMap IntSegment.times).length := by
    simp only [length_flatMap, IntSegment.aligned]
  have hvalues (segs : List IntSegment) :
      (segs.flatMap IntSegment.col).reduceOption = segs.flatMap fun s => s.col.reduceOption := filterMap_flatMap
  have h := sums_reset.addValues (hlen x.segments)
  rw [hvalues] at h
  have hall : x.segments.flatMap (fun s => s.col.reduceOption) = x.values := by
    rw [segments, flatMap_assoc]
    congr 1
    funext c
    cases c <;> rfl
  rwa [hall] at h

variable (overflow) in
theorem foldl_merge {cs : List IntChunk} (h : ∀ c ∈ cs, c.values.length < 2 ^ 63) (agg : IntegerPreAgg) :
    let m := cs.foldl (fun m c => m.merge overflow c.stored) agg
    m.min = extreme (· < ·) agg.min (cs.map fun c => roundTrip overflow (lowest c.values)) ∧
      m.max = extreme (· > ·) agg.max (cs.map fun c => roundTrip overflow (highest c.values)) ∧
      m.sum = (cs.flatMap IntChunk.values).foldl (· + ·) agg.sum ∧
      m.count = agg.count + ofNat (cs.flatMap IntChunk.values).length := by
  induction cs generalizing agg with
  | nil => exact ⟨rfl, rfl, rfl, (Int64.add_zero agg.count).symm⟩
  | cons c cs ih =>
    obtain ⟨hmin, hmax, hsum, hcount⟩ := merge_eq overflow agg (IntChunk.stored_spec (h c mem_cons_self)).2
    obtain ⟨hmin', hmax', hsum', hcount'⟩ := ih (forall_mem_cons.mp h).2 (agg.merge overflow c.stored)
    simp only [foldl_cons, flatMap_cons, foldl_append, length_append, ofNat_add, ← Int64.add_assoc]
    rw [hmin', hmax', hsum', hcount', hmin, hmax, hsum, hcount]
    exact ⟨rfl, rfl, rfl, rfl⟩

theorem length_values_lt {c : IntChunk} (h : some c ∈ x.chunks) : c.values.length < 2 ^ 63 := by
  refine lt_of_le_of_lt ?_ x.fits
  exact (sublist_flatten_of_mem (mem_map_of_mem (f := fun c => c.elim [] IntChunk.values) h)).length_le

variable (overflow) in
theorem exists_merged : ∃ m : IntegerPreAgg, x.metadata overflow = some m.marshal ∧
    m.min = extreme (· < ·) (lowest x.first) (x.later.map fun c => roundTrip overflow (lowest c.values)) ∧
    m.max = extreme (· > ·) (highest x.first) (x.later.map fun c => roundTrip overflow (highest c.values)) ∧
    m.sum = x.values.foldl (· + ·) 0 ∧ m.count = ofNat x.values.length := by
  have hstored (c : IntChunk) (h : some c ∈ x.chunks) := IntChunk.stored_spec (x.length_values_lt h)
  have hlater (c : IntChunk) (h : c ∈ x.later) : c.values.length < 2 ^ 63 :=
    x.length_values_lt (mem_of_mem_tail (reduceOption_mem_iff.mp h))
  rw [values_eq, foldl_append, length_append, ofNat_add]
  unfold metadata first
  unfold later at hlater ⊢
  cases hchunks : x.chunks with
  | nil => exact ⟨reset, rfl, rfl, rfl, rfl, rfl⟩
  | cons c cs =>
    rw [hchunks] at hstored hlater
    obtain ⟨agg, hagg, hsums⟩ : ∃ agg, (c.map fun c => c.preAgg.marshal).elim (some reset) unmarshal = some agg ∧
        agg.Sums (c.elim [] IntChunk.values) := by
      cases c with
      | none => exact ⟨reset, rfl, sums_reset⟩
      | some c => exact ⟨_, hstored c mem_cons_self⟩
    have hloop := foldlM_sources (IntegerPreAgg.merge overflow) (fun c hc => (hstored c (mem_cons_of_mem _ hc)).1) agg
    refine ⟨_, ?_, hsums.min ▸ hsums.max ▸ hsums.sum ▸ hsums.count ▸ foldl_merge overflow hlater agg⟩
    rw [map_cons, mergeIntegerPreAgg, hagg, Option.bind_eq_bind, Option.bind_some, hloop]
    rfl

variable (x overflow) in
theorem extreme_rounded_iff (r : Int64 → Int64 → Prop) [DecidableRel r] [IsStrictTotalOrder Int64 r] (s : Int64) :
    extreme r (extreme r s x.first) (x.later.map fun c => roundTrip overflow (extreme r s c.values)) =
        extreme r s x.values ↔
      (extreme r s x.values = extreme r s x.first ∨
          ∃ c ∈ x.later, roundTrip overflow (extreme r s c.values) = extreme r s x.values) ∧
        ∀ c ∈ x.later, ¬ r (roundTrip overflow (extreme r s c.values)) (extreme r s x.values) := by
  rw [extreme_eq_iff, mem_map, forall_mem_map]
  have hfirst : ¬ r (extreme r s x.first) (extreme r s x.values) := by
    rw [values_eq, extreme_append]
    exact (extreme_spec r _ _).2.1
  exact and_congr_right fun _ => and_iff_right hfirst

theorem lowKept_iff : extreme (· < ·) (lowest x.first) (x.later.map fun c => roundTrip overflow (lowest c.values)) =
    lowest x.values ↔ x.LowKept overflow := by
  have h := x.extreme_rounded_iff overflow (· < ·) maxValue
  simp only [Int64.not_lt] at h
  exact h

theorem highKept_iff : extreme (· > ·) (highest x.first) (x.later.map fun c => roundTrip overflow (highest c.values)) =
    highest x.values ↔ x.HighKept overflow := by
  have h := x.extreme_rounded_iff overflow (· > ·) minValue
  simp only [Int64.not_lt] at h
  exact h

/-- **The merged aggregates are those of all rows** exactly if the minimum survives and, unless there is only one value,
the maximum does. -/
theorem faithful_iff (x : IntegerMerge) (overflow : Int64) :
    x.Faithful overflow ↔ x.LowKept overflow ∧ (x.values.length ≠ 1 → x.HighKept overflow) := by
  obtain ⟨m, hmeta, hmin, hmax, hsum, hcount⟩ := x.exists_merged overflow
  have hw := x.sums_whole
  rw [← lowKept_iff, ← highKept_iff, ← hmin, ← hmax]
  have hcountOne : m.count = 1 ↔ x.values.length = 1 := hcount ▸ ofNat_eq_one_iff x.fits
  -- what is read back
  have hread : x.Faithful overflow ↔ ∃ m', unmarshal m.marshal = some m' ∧ m'.min = x.whole.min ∧
      m'.max = x.whole.max ∧ m'.sum = x.whole.sum ∧ m'.count = x.whole.count := by
    constructor
    · rintro ⟨src, m', hsrc, hm'⟩
      cases hmeta.symm.trans hsrc
      exact ⟨m', hm'⟩
    · rintro ⟨m', hm'⟩
      exact ⟨m.marshal, m', hmeta, hm'⟩
  rw [hread]
  by_cases hone : x.values.length = 1
  · -- only the minimum is written
    obtain ⟨v, hv⟩ := length_eq_one_iff.mp hone
    obtain ⟨hlow, hhigh⟩ := extreme_singleton v
    have hwmin : x.whole.min = v := by rw [hw.min, hv, hlow]
    have hwmax : x.whole.max = v := by rw [hw.max, hv, hhigh]
    have hwsum : x.whole.sum = v := by
      rw [hw.sum, hv]
      exact Int64.zero_add v
    have hwcount : x.whole.count = 1 := by rw [hw.count, ← hcount, hcountOne.mpr hone]
    have hlowest : lowest x.values = v := by
      rw [hv]
      exact hlow
    rw [unmarshal_marshal_of_eq (hcountOne.mpr hone), hwmin, hwmax, hwsum, hwcount, hlowest]
    constructor
    · rintro ⟨m', hm', hmin', -⟩
      cases hm'
      exact ⟨hmin', fun hne => absurd hone hne⟩
    · rintro ⟨hmin', -⟩
      exact ⟨_, rfl, hmin', hmin', hmin', rfl⟩
  · rw [unmarshal_marshal_of_ne (mt hcountOne.mp hone), hw.min, hw.max, hw.sum, hw.count]
    constructor
    · rintro ⟨m', hm', hmin', hmax', -⟩
      cases hm'
      exact ⟨hmin', fun _ => hmax'⟩
    · rintro ⟨hmin', hmax'⟩
      exact ⟨m, rfl, hmin', hmax' hone, hsum, hcount⟩

/-! ### Metadata that is wrong -/

/-- A chunk with one segment. -/
def oneSegment (times : List Int64) (col : List (Option Int64)) (h : col.length = times.length) : IntChunk :=
  [⟨times, col, h⟩]

/-- The value `2 ^ 53 + 1` in the second of two chunks. -/
def largeSecond : IntegerMerge where
  chunks := [some (oneSegment [1] [some 0] rfl), some (oneSegment [2] [some 9007199254740993] rfl)]
  fits := by decide

/-- A chunk without values behind one with the value 1. -/
def emptySecond : IntegerMerge where
  chunks := [some (oneSegment [1] [some 1] rfl), some (oneSegment [2] [none] rfl)]
  fits := by decide

/-- **The maximum is rounded to `2 ^ 53`**, whatever the machine; and where a float out of range becomes the smallest
number, a chunk without values makes that number the minimum. -/
theorem mergedMax_rounded : (∀ overflow, ¬ largeSecond.Faithful overflow) ∧ ¬ emptySecond.Faithful Int64.minValue := by
  constructor
  · rintro overflow ⟨src, m', hsrc, hm', -, hmax', -⟩
    obtain ⟨m, hmeta, -, hmax, -, hcount⟩ := largeSecond.exists_merged overflow
    cases hmeta.symm.trans hsrc
    cases (unmarshal_marshal_of_ne (hcount ▸ by decide)).symm.trans hm'
    have hround : roundTrip overflow (highest [9007199254740993]) = 9007199254740992 := by
      rw [roundTrip]
      exact if_pos (by decide)
    have hlater : largeSecond.later.map (fun c => roundTrip overflow (highest c.values)) = [9007199254740992] :=
      congrArg (fun v => [v]) hround
    rw [hmax', hlater] at hmax
    exact absurd hmax (by decide)
  · rintro ⟨src, m, hsrc, hm, hmin, -⟩
    have hread : ((emptySecond.metadata minValue).bind unmarshal).map (·.min) = some minValue := by decide
    rw [hsrc, Option.bind_some, hm, Option.map_some, hmin] at hread
    exact absurd hread (by decide)

end IntegerMerge

end GeminiTS.Immutable
