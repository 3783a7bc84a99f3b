import GeminiTS.Immutable.AggColumn

/-!
# WindowCursor — aggregates over windows of time, record by record

A cursor (`engine/aggregate_cursor.go`) reads the records of a series and cuts each one where the window changes. The
reducer of the call (`engine/series_agg_reducer.gen.go`) makes one row of each part. The part at the end of a record is
kept in a buffer if the record to come, which is looked at in advance, goes on with the window.
-/

namespace GeminiTS.Agg

open Lib

instance instLinearOrderInt64 : LinearOrder Int64 where
  le_refl := Int64.le_refl
  le_trans _ _ _ := Int64.le_trans
  le_antisymm _ _ := Int64.le_antisymm
  le_total := Int64.le_total
  lt_iff_le_not_ge a b := by rw [Int64.not_le, iff_and_self]; exact Int64.le_of_lt
  toDecidableLE := inferInstance

/-- A time and the value of the column, absent if it is null. -/
abbrev Row := ℤ × Option Int64

/-! ### Windows -/

/-- `influxql.MinTime`. -/
def minTime : ℤ := -2 ^ 63 + 2

/-- `influxql.MaxTime`. -/
def maxTime : ℤ := 2 ^ 63 - 2

/-- `Window`: from the first time to before the second. -/
def window (interval t : ℤ) : ℤ × ℤ :=
  let dt := if t.tmod interval < 0 then t.tmod interval + interval else t.tmod interval
  (if minTime + dt ≥ t then minTime else t - dt,
    if maxTime - (interval - dt) ≤ t then maxTime else t + (interval - dt))

/-- A record: its rows, and where the null bits of the column begin. -/
structure InRecord where
  rows : List Row
  bitMapOffset : ℕ

namespace InRecord

variable (r : InRecord)

def times : List ℤ := r.rows.map Prod.fst

def col : ColVal Int64 := r.rows.map Prod.snd

def time (i : ℕ) : ℤ := r.times[i]?.getD 0

/-- `IntegerValues`: the values without the nulls. -/
def integerValues : List Int64 := r.col.reduceOption

def nilCount : ℕ := r.col.countP Option.isNone

/-- `getIntervalIndex`: the rows from number `i` on, in the window `w` so far. The numbers are stored in 16 bits. -/
def intervalIndexFrom (interval : ℤ) : ℕ → ℤ × ℤ → List ℤ → List ℕ
  | _, _, [] => []
  | i, w, t :: ts =>
    if i = 0 ∨ t ≥ w.2 ∨ t < w.1 then i % 65536 :: intervalIndexFrom interval (i + 1) (window interval t) ts
    else intervalIndexFrom interval (i + 1) w ts

def getIntervalIndex (interval : ℤ) : List ℕ := intervalIndexFrom interval 0 (0, 0) r.times

end InRecord

/-- `inNextWindow`: the last part of a record, which is not empty, goes on in the records to come. -/
def inNextWindow (interval : ℤ) (r : InRecord) : List InRecord → Bool
  | [] => false
  | next :: _ =>
    match next.times with
    | [] => true
    | t :: _ =>
      let lastTime := r.time (r.rows.length - 1)
      (window interval t).1 ≤ lastTime && lastTime < (window interval t).2

/-! ### One part of a record -/

section Reduce

variable (r : InRecord) (start stop : ℕ)

def validCount : ℤ :=
  if r.nilCount = r.rows.length then 0
  else if r.nilCount = 0 then stop - start
  else (nonNil r.col start stop).length

/-- `GetValIndexRange`, as far as the slice of the values it is used for exists. A part that ends before it starts has
an empty slice only if the bits in between are zero and share a byte with the one at the end. -/
def getValIndexRange : Option (ℕ × ℕ) :=
  let valid := fun n => (nonNil r.col 0 n).length
  if r.nilCount = 0 then if start ≤ stop then some (start, stop) else none
  else if start ≤ stop then some (valid start, valid stop)
  else if (r.bitMapOffset + start) / 8 = (r.bitMapOffset + stop) / 8 ∧ (r.bitMapOffset + stop) % 8 ≠ 0 ∧
      valid start = valid stop then some (valid start, valid start)
  else none

/-- `minValue` and `maxValue` in a column with nulls: value number `vIdx` is the one of the next row with a value. -/
def scanExtreme (isMin : Bool) (skip : ℕ) : List ℕ → ℕ → Option (Int64 × ℕ) → Option (Int64 × ℕ)
  | [], _, best => best
  | i :: is, vIdx, best =>
    match r.integerValues[vIdx]? with
    | none => best
    | some v =>
      if r.col.isNil i then scanExtreme isMin skip is vIdx best
      else if vIdx = skip then scanExtreme isMin skip is (vIdx + 1) (some (v, i))
      else scanExtreme isMin skip is (vIdx + 1) (pick (beats isMin) best (v, i))

/-- `minValue` and `maxValue` in a column without nulls. -/
def extremeStep (isMin : Bool) (best : Int64 × ℕ) (i : ℕ) : Int64 × ℕ :=
  match r.integerValues[i]? with
  | some v => if beats isMin v best.1 then (v, i) else best
  | none => best

/-- `minValue` and `maxValue`: the value and its row. -/
def extremeValue (isMin : Bool) : Option (Int64 × ℕ) :=
  if r.integerValues = [] then none
  else if r.nilCount = 0 then
    (r.integerValues[start]?).map fun v =>
      (List.range' start (stop - start)).foldl (extremeStep r isMin) (v, start)
  else
    let skip := (nonNil r.col 0 start).length
    scanExtreme r isMin skip (List.range' start (stop - start)) skip none

def firstValue : Option (Int64 × ℕ) :=
  if r.integerValues = [] then none
  else if r.nilCount = 0 then r.integerValues[start]?.map (·, start)
  else
    match (List.range' start (stop - start)).find? fun i => !r.col.isNil i with
    | none => none
    | some row => r.integerValues[(nonNil r.col 0 start).length]?.map (·, row)

/-- `lastValue`; without nulls, a part that ends at row 0 has row -1 as its last one. -/
def lastValue : Option (Option (Int64 × ℕ)) :=
  if r.integerValues = [] then some none
  else if r.nilCount = 0 then if stop = 0 then none else some (r.integerValues[stop - 1]?.map (·, stop - 1))
  else
    match (List.range' start (stop - start)).reverse.find? fun i => !r.col.isNil i with
    | none => some none
    | some row => some (r.integerValues[(nonNil r.col 0 row).length]?.map (·, row))

end Reduce

/-- The calls on an integer column. -/
inductive Call where
  | count
  | sum
  | min
  | max
  | first
  | last
deriving DecidableEq

/-- What a reduce function returns. -/
structure Reduced where
  index : ℕ
  value : Int64
  isNil : Bool

/-- A value and its row as they are returned, `nil` if there is none. -/
def Reduced.ofRow : Option (Int64 × ℕ) → Reduced
  | none => ⟨0, 0, true⟩
  | some (v, i) => ⟨i, v, false⟩

namespace Call

/-- The reduce function of a call, on the rows `[start, stop)`. -/
def reduce (call : Call) (r : InRecord) (start stop : ℕ) : Option Reduced :=
  match call with
  | count => some ⟨start, Int64.ofInt (validCount r start stop), validCount r start stop = 0⟩
  | sum =>
    if r.rows = [] then some ⟨start, 0, true⟩
    else
      (getValIndexRange r start stop).map fun range =>
        let values := r.integerValues.extract range.1 range.2
        ⟨range.1, values.foldl (· + ·) 0, values.isEmpty⟩
  | min => some (Reduced.ofRow (extremeValue r start stop true))
  | max => some (Reduced.ofRow (extremeValue r start stop false))
  | first => some (Reduced.ofRow (firstValue r start stop))
  | last => (lastValue r start stop).map Reduced.ofRow

/-- The merge function of a call, on times with values. -/
def merge (call : Call) (prev curr : ℤ × Int64) : ℤ × Int64 :=
  match call with
  | count | sum => (prev.1, prev.2 + curr.2)
  | min => if curr.2 < prev.2 then curr else prev
  | max => if curr.2 > prev.2 then curr else prev
  | first => prev
  | last => curr

/-- The calls that go through `integerTimeColIntegerReducer`. -/
def timeCol : Call → Bool
  | first | last => true
  | _ => false

end Call

/-! ### One record -/

/-- The buffer of the reducer, and the rows of the record that is filled. -/
structure Reducer where
  prevBuf : Option (ℤ × Int64)
  out : List Row

section Aggregate

variable (call : Call) (r : InRecord) (sameWindow : Bool)

/-- A turn of the loop in `Aggregate`, for the rows `[start, stop)`. -/
def aggregatePart (isFirst isLast : Bool) (start stop : ℕ) (s : Reducer) : Option Reducer := do
  let x ← call.reduce r start stop
  let index := if !call.timeCol && r.nilCount = r.rows.length then start else x.index
  if x.isNil then
    match s.prevBuf with
    | some prev =>
      if isFirst && (!isLast || !sameWindow) then return ⟨none, s.out ++ [(prev.1, some prev.2)]⟩
      else if isLast && sameWindow then return s
      else return { s with out := s.out ++ [(r.time index, none)] }
    | none =>
      if isLast && sameWindow then return s
      else return { s with out := s.out ++ [(r.time index, none)] }
  else
    let curr := (r.time index, x.value)
    match isFirst, s.prevBuf with
    | true, some prev =>
      let merged := call.merge prev curr
      if isLast && sameWindow then return { s with prevBuf := some merged }
      else return ⟨none, s.out ++ [(merged.1, some merged.2)]⟩
    | _, _ =>
      if isLast && sameWindow then return { s with prevBuf := some curr }
      else return { s with out := s.out ++ [(curr.1, some curr.2)] }

/-- The loop in `Aggregate`. -/
def aggregateParts : Bool → List ℕ → Reducer → Option Reducer
  | _, [], s => some s
  | isFirst, start :: starts, s => do
    let s ← aggregatePart call r sameWindow isFirst starts.isEmpty start (starts.head?.getD r.rows.length) s
    aggregateParts false starts s

def aggregate (interval : ℤ) (s : Reducer) : Option Reducer :=
  aggregateParts call r sameWindow true (r.getIntervalIndex interval) s

end Aggregate

/-! ### The cursor -/

section Cursor

variable (call : Call) (interval : ℤ) (maxRecordSize : ℕ)

/-- `Next`: the record, the records left, and the buffer. -/
def next : List InRecord → Reducer → Option (Option (List Row) × List InRecord × Option (ℤ × Int64))
  | [], s => some (if s.out.length > 0 then some s.out else none, [], s.prevBuf)
  | r :: rest, s =>
    if r.rows.length = 0 then next rest s
    else if s.out.length ≥ maxRecordSize then some (some s.out, r :: rest, s.prevBuf)
    else (aggregate call r (inNextWindow interval r rest) interval s).bind (next rest)

/-- The rows of the calls of `Next` up to the first `nil`, if it is among the first `n`. -/
def deliver : ℕ → List InRecord → Option (ℤ × Int64) → Option (List Row)
  | 0, _, _ => none
  | n + 1, input, prevBuf =>
    match next call interval maxRecordSize input ⟨prevBuf, []⟩ with
    | none => none
    | some (none, _, _) => some []
    | some (some rec, rest, prevBuf) => (deliver n rest prevBuf).map (rec ++ ·)

end Cursor

end GeminiTS.Agg
