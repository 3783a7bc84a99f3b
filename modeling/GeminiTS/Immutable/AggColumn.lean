import GeminiTS.Lib.FirstBest
import GeminiTS.Lib.SortSearch
import GeminiTS.Record.Basic

/-!
# AggColumn — a column of a chunk, its metadata, and the rows in a time range

What answering an aggregate from a chunk reads: the segments of the column next to those of the time
column, and the stored pre-aggregates (`engine/immutable/pre_aggregation.go`). Answers are kept in
the column metadata of a record (`lib/record/record_meta.go`).
-/

namespace GeminiTS

open Lib List

variable {α : Type*}

/-- A range of times, both ends included; the ends may be in the wrong order. -/
structure TimeRange where
  min : ℤ
  max : ℤ

namespace TimeRange

def overlaps (tr : TimeRange) (lo hi : ℤ) : Bool := tr.min ≤ hi && tr.max ≥ lo

/-- The time is in the range. -/
def has (tr : TimeRange) (t : ℤ) : Bool := tr.min ≤ t && t ≤ tr.max

end TimeRange

/-- Aggregates of a column (`ColMeta`); an absent value is `nil`. -/
structure ColMeta (α : Type*) where
  isSetFlag : Bool
  min : Option (α × ℤ)
  max : Option (α × ℤ)
  first : Option (α × ℤ)
  last : Option (α × ℤ)
  sum : Option ℤ
  count : Option ℤ
deriving DecidableEq

namespace ColMeta

/-- `Init`. -/
def init : ColMeta α := ⟨false, none, none, none, none, none, none⟩

def setMin (v : α) (t : ℤ) (m : ColMeta α) : ColMeta α := { m with isSetFlag := true, min := some (v, t) }

def setMax (v : α) (t : ℤ) (m : ColMeta α) : ColMeta α := { m with isSetFlag := true, max := some (v, t) }

def setSum (sum : Option ℤ) (m : ColMeta α) : ColMeta α := { m with isSetFlag := true, sum := sum }

def setCount (count : ℤ) (m : ColMeta α) : ColMeta α := { m with isSetFlag := true, count := some count }

/-- The minimum or the maximum. -/
def extreme (isMin : Bool) (m : ColMeta α) : Option (α × ℤ) := if isMin then m.min else m.max

/-- Set the minimum or the maximum. -/
def setExtreme (isMin : Bool) (v : α) (t : ℤ) (m : ColMeta α) : ColMeta α :=
  if isMin then m.setMin v t else m.setMax v t

end ColMeta

/-- The stored pre-aggregates of a column. -/
structure PreAgg (α : Type*) where
  min : α
  minTime : ℤ
  max : α
  maxTime : ℤ
  sum : Option ℤ
  count : ℤ

/-- The minimum or the maximum, with its time. -/
def PreAgg.extreme (isMin : Bool) (a : PreAgg α) : α × ℤ :=
  if isMin then (a.min, a.minTime) else (a.max, a.maxTime)

/-- A segment of the time column and of another column. -/
structure AggSegment (α : Type*) where
  times : List ℤ
  col : ColVal α

namespace AggSegment

def minTime (s : AggSegment α) : ℤ := s.times.head?.getD 0

def maxTime (s : AggSegment α) : ℤ := s.times.getLast?.getD 0

def rows (s : AggSegment α) : List (ℤ × Option α) := s.times.zip s.col

end AggSegment

/-- A column of a chunk. -/
structure AggColumn (α : Type*) where
  segs : List (AggSegment α)
  preAgg : PreAgg α

/-- The rows with a value, as values with their times. -/
def valued (rows : List (ℤ × Option α)) : List (α × ℤ) := rows.filterMap fun p => p.2.map (·, p.1)

namespace AggColumn

def rows (c : AggColumn α) : List (ℤ × Option α) := c.segs.flatMap AggSegment.rows

def times (c : AggColumn α) : List ℤ := c.segs.flatMap AggSegment.times

/-- The values in a range. -/
def inRange (tr : TimeRange) (c : AggColumn α) : List (α × ℤ) := valued (c.rows.filter fun p => tr.has p.1)

/-- There is a segment and none is empty, the columns have equally many rows, times ascend
strictly. -/
structure WF (c : AggColumn α) : Prop where
  ne : c.segs ≠ []
  seg_ne : ∀ s ∈ c.segs, s.times ≠ []
  aligned : ∀ s ∈ c.segs, s.col.length = s.times.length
  ascending : c.times.Pairwise (· < ·)

def minTime (c : AggColumn α) : ℤ := (c.segs.head?.map AggSegment.minTime).getD 0

def maxTime (c : AggColumn α) : ℤ := (c.segs.getLast?.map AggSegment.maxTime).getD 0

def allRowsInRange (tr : TimeRange) (c : AggColumn α) : Bool := tr.min ≤ c.minTime && tr.max ≥ c.maxTime

end AggColumn

/-! ### The rows of a segment in a range -/

def findRowIdxStart (times : List ℤ) (t : ℤ) : ℕ := sortSearch (fun i => times[i]?.any (t ≤ ·)) 0 times.length

def findRowIdxStop (times : List ℤ) (t : ℤ) : ℕ := sortSearch (fun i => times[i]?.any (t < ·)) 0 times.length

/-- The values of a column at positions `[start, stop)`, with their positions. -/
def nonNil (col : ColVal α) (start stop : ℕ) : List (α × ℕ) :=
  (range' start (stop - start)).filterMap fun i => col[i]?.join.map (·, i)

theorem findRowIdxStart_eq (times : List ℤ) (t : ℤ) : findRowIdxStart times t = countLe times (t - 1) := by
  unfold findRowIdxStart countLe
  congr 1
  funext i
  cases times[i]? with
  | none => rfl
  | some x =>
    rw [Option.any_some, Option.any_some, decide_eq_decide]
    omega

theorem findRowIdxStop_eq (times : List ℤ) (t : ℤ) : findRowIdxStop times t = countLe times t := rfl

variable {times : List ℤ} {col : ColVal α}

theorem map_nonNil (hlen : col.length = times.length) (start stop : ℕ) (hstop : stop ≤ times.length) :
    (nonNil col start stop).map (fun p => (p.1, times[p.2]?.getD 0)) = valued ((times.zip col).extract start stop) := by
  unfold nonNil
  obtain ⟨n, hn⟩ : ∃ n, n = stop - start := ⟨_, rfl⟩
  rw [← hn]
  induction n generalizing start with
  | zero => simp [valued, extract_of_le _ (Nat.sub_eq_zero_iff_le.mp hn.symm)]
  | succ n ih =>
    have hlt : start < stop := by omega
    have ht : start < times.length := by omega
    rw [range'_succ, extract_eq_cons _ hlt (by simp; omega),
      filterMap_cons, getElem_zip, getElem?_eq_getElem (by omega)]
    have ih := ih (start + 1) (by omega)
    cases hv : col[start] with
    | none => simpa [valued] using ih
    | some v => simpa [valued, getElem?_eq_getElem ht] using ih

/-- The rows of a segment between the bounds are its rows in the range. -/
theorem extract_findRowIdx (hlen : col.length = times.length) (hasc : times.Pairwise (· < ·)) (tr : TimeRange) :
    (times.zip col).extract (findRowIdxStart times tr.min) (findRowIdxStop times tr.max) =
      (times.zip col).filter fun p => tr.has p.1 := by
  have hkeys : (times.zip col).map Prod.fst = times := map_fst_zip hlen.ge
  have hsorted : ((times.zip col).map Prod.fst).Pairwise (· < ·) := hkeys.symm ▸ hasc
  rw [findRowIdxStart_eq, findRowIdxStop_eq]
  rcases le_total (tr.min - 1) tr.max with hle | hle
  · have h := extract_countLe_map hsorted hle
    rw [hkeys] at h
    rw [h]
    refine filter_congr fun p _ => ?_
    rw [TimeRange.has, ← Bool.decide_and, decide_eq_decide]
    omega
  · rw [extract_of_le _ (countLe_mono hasc hle)]
    refine (filter_eq_nil_iff.mpr fun p _ hin => ?_).symm
    simp only [TimeRange.has, Bool.and_eq_true, decide_eq_true_eq] at hin
    omega

/-- The bounds are in the wrong order exactly if a row lies between the ends of an inverted range. -/
theorem findRowIdxStart_le_stop_iff (hasc : times.Pairwise (· < ·)) (tr : TimeRange) :
    findRowIdxStart times tr.min ≤ findRowIdxStop times tr.max ↔ ∀ t ∈ times, tr.max < t → tr.min ≤ t := by
  rw [findRowIdxStart_eq, findRowIdxStop_eq]
  constructor
  · intro hle t ht hlt
    by_contra hnot
    rw [countLe_eq hasc, countLe_eq hasc] at hle
    have hsub : (times.filter (· ≤ tr.max)).Sublist (times.filter (· ≤ tr.min - 1)) :=
      monotone_filter_right times fun x hx => by simp only [decide_eq_true_eq] at hx ⊢; omega
    have hmem : t ∈ times.filter (· ≤ tr.max) := by
      rw [hsub.eq_of_length_le hle]
      exact mem_filter.mpr ⟨ht, by simp only [decide_eq_true_eq]; omega⟩
    have := of_decide_eq_true (mem_filter.mp hmem).2
    omega
  · intro hgap
    rcases le_total (tr.min - 1) tr.max with hle | hle
    · exact countLe_mono hasc hle
    · exact (countLe_congr hasc hle fun t ht h => absurd (hgap t ht h.1) (by omega)).ge

theorem findRowIdxStop_le (hasc : times.Pairwise (· < ·)) (t : ℤ) :
    findRowIdxStop times t ≤ times.length := countLe_le hasc t

/-! ### The rows of a column in a range -/

/-- The values of a segment in a range. -/
def AggSegment.inRange (tr : TimeRange) (s : AggSegment α) : List (α × ℤ) := valued (s.rows.filter fun p => tr.has p.1)

theorem mem_times_of_mem_rows {s : AggSegment α} {p : ℤ × Option α} (hp : p ∈ s.rows) :
    p.1 ∈ s.times := (of_mem_zip hp).1

namespace AggColumn

variable {c : AggColumn α}

theorem inRange_eq_flatMap (tr : TimeRange) (c : AggColumn α) :
    c.inRange tr = c.segs.flatMap (AggSegment.inRange tr) := by
  rw [inRange, rows, filter_flatMap, valued, filterMap_flatMap]
  rfl

namespace WF

variable (hc : c.WF)

include hc

variable {tr : TimeRange} {t : ℤ} {s : AggSegment α}

theorem seg_ascending (hs : s ∈ c.segs) : s.times.Pairwise (· < ·) :=
  hc.ascending.sublist (sublist_flatten_of_mem (mem_map_of_mem hs))

theorem inRange_of_not_overlaps (hs : s ∈ c.segs) (h : tr.overlaps s.minTime s.maxTime = false) :
    s.inRange tr = [] := by
  have hasc := hc.seg_ascending hs
  have hne := hc.seg_ne s hs
  have hnone : s.rows.filter (fun p => tr.has p.1) = [] := by
    refine filter_eq_nil_iff.mpr fun p hp hin => ?_
    have ht := mem_times_of_mem_rows hp
    have hmin := head?_le hasc (head?_eq_some_head hne) ht
    have hmax := le_getLast? hasc (getLast?_eq_some_getLast hne) ht
    simp only [TimeRange.overlaps, AggSegment.minTime, AggSegment.maxTime, head?_eq_some_head hne,
      getLast?_eq_some_getLast hne, Option.getD_some, Bool.and_eq_false_iff,
      decide_eq_false_iff_not] at h
    simp only [TimeRange.has, Bool.and_eq_true, decide_eq_true_eq] at hin
    omega
  rw [AggSegment.inRange, hnone]
  rfl

theorem minTime_le (ht : t ∈ c.times) : c.minTime ≤ t := by
  obtain ⟨s, segs, hsegs⟩ := exists_cons_of_ne_nil hc.ne
  have hne := hc.seg_ne s (hsegs ▸ mem_cons_self)
  have hhead : c.times.head? = some (s.times.head hne) := by
    rw [times, hsegs, flatMap_cons, head?_append, head?_eq_some_head hne, Option.some_or]
  have hmin : c.minTime = s.times.head hne := by
    rw [minTime, hsegs, head?_cons, Option.map_some, Option.getD_some, AggSegment.minTime,
      head?_eq_some_head hne, Option.getD_some]
  rw [hmin]
  exact head?_le hc.ascending hhead ht

theorem le_maxTime (ht : t ∈ c.times) : t ≤ c.maxTime := by
  obtain ⟨segs, s, hsegs⟩ : ∃ segs s, c.segs = segs ++ [s] := ⟨_, _, (dropLast_append_getLast hc.ne).symm⟩
  have hne := hc.seg_ne s (hsegs ▸ mem_append_right _ mem_cons_self)
  have hlast : c.times.getLast? = some (s.times.getLast hne) := by
    rw [times, hsegs, flatMap_append, flatMap_singleton, getLast?_append, getLast?_eq_some_getLast hne, Option.some_or]
  have hmax : c.maxTime = s.times.getLast hne := by
    rw [maxTime, hsegs, getLast?_append, getLast?_singleton, Option.some_or, Option.map_some,
      Option.getD_some, AggSegment.maxTime, getLast?_eq_some_getLast hne, Option.getD_some]
  rw [hmax]
  exact le_getLast? hc.ascending hlast ht

theorem inRange_of_allRowsInRange (h : c.allRowsInRange tr = true) : c.inRange tr = valued c.rows := by
  simp only [allRowsInRange, Bool.and_eq_true, decide_eq_true_eq] at h
  rw [inRange, filter_eq_self.mpr]
  intro p hp
  obtain ⟨s, hs, hp⟩ := mem_flatMap.mp hp
  have ht : p.1 ∈ c.times := mem_flatMap.mpr ⟨s, hs, mem_times_of_mem_rows hp⟩
  have hmin := hc.minTime_le ht
  have hmax := hc.le_maxTime ht
  simp only [TimeRange.has, Bool.and_eq_true, decide_eq_true_eq]
  omega

end WF

end AggColumn

end GeminiTS
