import GeminiTS.Immutable.AggColumn

/-!
# ReadAgg — min, max, sum and count of a column of a chunk

`readMinMax` and `readSumCount` (`engine/immutable/reader.go`): if the whole chunk is in the range the
answer is the stored pre-aggregate, otherwise the segments that overlap the range are scanned.

What depends on the type of the column is in `FieldOps`: integers are compared with a start value
that any other value is meant to improve, booleans stop at the first value that cannot be improved.
-/

namespace GeminiTS

open Lib AggSegment

/-- What the type of a column decides. -/
structure FieldOps (α : Type*) where
  /-- The best value at positions `[start, stop)` and its position. -/
  scan : Bool → ColVal α → ℕ → ℕ → Option (α × ℕ)
  /-- The first value is to replace the second as the minimum (or maximum). -/
  better : Bool → α → α → Bool
  /-- Add the values at positions `[start, stop)` to the sum; there is no result if an index is out of range. -/
  sumRangeValues : ColVal α → ℕ → ℕ → ColMeta α → Option (ColMeta α)

/-! ### Integers -/

/-- The value a scan for the minimum (maximum) starts with. -/
def sentinel (isMin : Bool) : ℤ := if isMin then maxInt64 else minInt64

/-- One round of the loops for integers in `readMinRowIndex` and `readMaxRowIndex`. -/
def scanStep (isMin : Bool) (col : ColVal ℤ) (acc : ℤ × Option ℕ) (i : ℕ) : ℤ × Option ℕ :=
  match col[i]?.join with
  | none => acc
  | some v => if beats isMin v acc.1 then (v, some i) else acc

def scanInt (isMin : Bool) (col : ColVal ℤ) (start stop : ℕ) : Option (ℤ × ℕ) :=
  let acc := (List.range' start (stop - start)).foldl (scanStep isMin col) (sentinel isMin, none)
  acc.2.map (acc.1, ·)

/-- Add values to the sum, if there are any. -/
def addSum (values : List ℤ) (colMeta : ColMeta ℤ) : ColMeta ℤ :=
  if values.isEmpty then colMeta
  else
    let sum := values.foldl (fun s n => int64 (s + n)) 0
    colMeta.setSum (some (match colMeta.sum with
      | some s => int64 (sum + s)
      | none => sum))

/-- `SubIntegerValues`. Of positions in the wrong order it slices the values that way round; in a column with nulls it
first counts the values between them in the bitmap, for which they have to be in one byte. -/
def subIntegerValues (col : ColVal ℤ) (start stop : ℕ) : Option (List ℤ) :=
  if start ≤ stop then some ((col.extract start stop).filterMap id)
  else if none ∈ col ∧ start / 8 < (stop + 7) / 8 ∧ (col.extract stop start).filterMap id = [] then some []
  else none

/-- `sumRangeValues` for integers. -/
def sumRangeInt (col : ColVal ℤ) (start stop : ℕ) (colMeta : ColMeta ℤ) : Option (ColMeta ℤ) :=
  (subIntegerValues col start stop).map (addSum · colMeta)

def intOps : FieldOps ℤ := ⟨scanInt, fun isMin a b => beats isMin a b, sumRangeInt⟩

/-! ### Booleans -/

/-- `loopMinRowindex` and `loopMaxRowindex`: left at the first value that improves on another. -/
def loopRowindex (isMin : Bool) (col : ColVal Bool) : List ℕ → Option (Bool × ℕ) → Option (Bool × ℕ)
  | [], best => best
  | i :: is, best =>
    match col[i]?.join, best with
    | none, best => loopRowindex isMin col is best
    | some v, none => loopRowindex isMin col is (some (v, i))
    | some v, some b => if beats isMin v b.1 then some (v, i) else loopRowindex isMin col is (some b)

def boolOps : FieldOps Bool :=
  ⟨fun isMin col start stop => loopRowindex isMin col (List.range' start (stop - start)) none,
    fun isMin a b => beats isMin a b, fun _ _ _ colMeta => some colMeta⟩

/-! ### Reading a column -/

section Read

variable {α : Type*} (ops : FieldOps α) (tr : TimeRange)

/-- One segment: the metadata, and the row if it was set. -/
def readMinMaxRowIndex (isMin : Bool) (s : AggSegment α) (colMeta : ColMeta α) : ColMeta α × Option ℕ :=
  if findRowIdxStart s.times tr.min = s.times.length then (colMeta, none)
  else
    match ops.scan isMin s.col (findRowIdxStart s.times tr.min) (findRowIdxStop s.times tr.max) with
    | none => (colMeta, none)
    | some (v, i) =>
      if (colMeta.extreme isMin).all fun orig => ops.better isMin v orig.1 then
        (colMeta.setExtreme isMin v (s.times[i]?.getD 0), some i)
      else (colMeta, none)

/-- The loop over the segments, from segment `i` on; the row is given by its segment and its position
there. -/
def readMinMaxFromData (isMin : Bool) :
    List (AggSegment α) → ℕ → ColMeta α × Option (ℕ × ℕ) → ColMeta α × Option (ℕ × ℕ)
  | [], _, acc => acc
  | s :: segs, i, (colMeta, row) =>
    if tr.overlaps s.minTime s.maxTime then
      readMinMaxFromData isMin segs (i + 1) ((readMinMaxRowIndex ops tr isMin s colMeta).1,
        ((readMinMaxRowIndex ops tr isMin s colMeta).2.map (i, ·)).or row)
    else readMinMaxFromData isMin segs (i + 1) (colMeta, row)

/-- The row of a time, by its segment and its position there. -/
def findRowIndex (tm : ℤ) : List (AggSegment α) → ℕ → Option (ℕ × ℕ)
  | [], _ => none
  | s :: segs, i =>
    if s.minTime ≤ tm ∧ tm ≤ s.maxTime ∧ findRowIdxStart s.times tm < s.times.length then
      some (i, findRowIdxStart s.times tm)
    else findRowIndex tm segs (i + 1)

/-- What `readMinMax` leaves: the metadata, the time of the row, and the row the auxiliary columns are
read from. -/
structure MinMaxRead (α : Type*) where
  colMeta : ColMeta α
  tm : ℤ
  row : Option (ℕ × ℕ)

def readMinMax (isMin readAux : Bool) (c : AggColumn α) (colMeta : ColMeta α) : MinMaxRead α :=
  if c.allRowsInRange tr then
    ⟨colMeta.setExtreme isMin (c.preAgg.extreme isMin).1 (c.preAgg.extreme isMin).2, (c.preAgg.extreme isMin).2,
      if readAux then findRowIndex (c.preAgg.extreme isMin).2 c.segs 0 else none⟩
  else
    let read := readMinMaxFromData ops tr isMin c.segs 0 (colMeta, none)
    ⟨read.1, ((read.1.extreme isMin).map Prod.snd).getD 0, read.2⟩

/-- Number of values at positions `[start, stop)`. -/
def validCount (col : ColVal α) (start stop : ℕ) : ℤ :=
  if col.all Option.isNone then 0
  else if col.all Option.isSome then stop - start
  else (nonNil col start stop).length

/-- Add to the count, if there is something to add. -/
def addCount (count : ℤ) (colMeta : ColMeta α) : ColMeta α :=
  if count ≠ 0 then colMeta.setCount (count + colMeta.count.getD 0) else colMeta

/-- One segment of `readSumCountFromData`. -/
def readSumCountSegment (isSum : Bool) (s : AggSegment α) (colMeta : ColMeta α) : Option (ColMeta α) :=
  if isSum then
    ops.sumRangeValues s.col (findRowIdxStart s.times tr.min) (findRowIdxStop s.times tr.max) colMeta
  else some (addCount (validCount s.col (findRowIdxStart s.times tr.min) (findRowIdxStop s.times tr.max)) colMeta)

def readSumCountFromData (isSum : Bool) (c : AggColumn α) (colMeta : ColMeta α) : Option (ColMeta α) :=
  c.segs.foldlM (fun colMeta s =>
    if tr.overlaps s.minTime s.maxTime then readSumCountSegment ops tr isSum s colMeta else some colMeta) colMeta

def readSumCount (isSum : Bool) (c : AggColumn α) (colMeta : ColMeta α) : Option (ColMeta α) :=
  if c.allRowsInRange tr then
    if isSum then some (colMeta.setSum c.preAgg.sum)
    else some (if c.preAgg.count ≠ 0 then colMeta.setCount c.preAgg.count else colMeta)
  else readSumCountFromData ops tr isSum c colMeta

end Read

/-! ### What the aggregates of a chunk are -/

open List

/-- The scan for the minimum (maximum) of a type finds the first best of the values it keeps. -/
structure FieldOps.Scans {α : Type*} [LinearOrder α] (ops : FieldOps α) (isMin : Bool)
    (valid : α → Prop) (keep : α → Bool) : Prop where
  better : ∀ a b, ops.better isMin a b = decide (beats isMin a b)
  scan : ∀ col start stop, (∀ v, some v ∈ col → valid v) → ops.scan isMin col start stop =
      firstBest (beats isMin) ((nonNil col start stop).filter fun p => keep p.1)

/-! ### Integers -/

/-- A 64-bit integer. -/
def IsInt64 (v : ℤ) : Prop := minInt64 ≤ v ∧ v ≤ maxInt64

variable {isMin : Bool}

theorem beats_sentinel {v : ℤ} (hv : IsInt64 v) : v = sentinel isMin ∨ beats isMin v (sentinel isMin) := by
  obtain ⟨hlo, hhi⟩ := hv
  cases isMin <;> simp only [sentinel, beats_true, beats_false, if_true, Bool.false_eq_true, if_false] <;> omega

/-- The loop keeps the better of the start value, which has no position, and the first best value. -/
theorem foldl_scanStep (isMin : Bool) (col : ColVal ℤ) (start stop : ℕ) :
    some ((range' start (stop - start)).foldl (scanStep isMin col) (sentinel isMin, none)) =
      pickBest (beats isMin) (some (sentinel isMin, none))
        ((firstBest (beats isMin) (nonNil col start stop)).map (Prod.map id some)) := by
  rw [← firstBest_map, ← foldl_pick, foldl_map, nonNil, foldl_filterMap]
  refine (foldl_hom some fun acc i => ?_).symm
  rw [scanStep]
  cases col[i]?.join with
  | none => rfl
  | some v =>
    simp only [Option.map_some, pick]
    split_ifs <;> rfl

theorem intOps_scans (isMin : Bool) : intOps.Scans isMin IsInt64 fun v => v ≠ sentinel isMin where
  better _ _ := rfl
  scan col start stop hcol := by
    have hm : ∀ p ∈ nonNil col start stop, p.1 = sentinel isMin ∨ beats isMin p.1 (sentinel isMin) := by
      intro p hp
      obtain ⟨i, -, hi⟩ := mem_filterMap.mp hp
      obtain ⟨v, hv, rfl⟩ := Option.map_eq_some_iff.mp hi
      exact beats_sentinel (hcol v (mem_of_getElem? (Option.join_eq_some_iff.mp hv)))
    have hloop := foldl_scanStep isMin col start stop
    rw [firstBest_filter_ne _ hm]
    show Option.map _ _ = _
    cases hbest : firstBest (beats isMin) (nonNil col start stop) with
    | none =>
      rw [hbest] at hloop
      rw [Option.some.inj hloop]
      rfl
    | some p =>
      rw [hbest] at hloop
      rcases hm p (mem_of_firstBest _ hbest) with hp | hp
      · have hworse : ¬ beats isMin p.1 (sentinel isMin) := hp ▸ irrefl_of (beats isMin) _
        rw [Option.some.inj (hloop.trans (if_neg hworse)), Option.filter_some_neg (by simpa using hp)]
        rfl
      · have hne : p.1 ≠ sentinel isMin := fun heq => irrefl_of (beats isMin) _ (heq ▸ hp)
        rw [Option.some.inj (hloop.trans (if_pos hp)), Option.filter_some_pos (by simpa using hne)]
        rfl

/-! ### Booleans -/

theorem not_beats_of_beats {a b c : Bool} (h : beats isMin a b) : ¬ beats isMin c a := by
  revert h
  cases isMin <;> revert a b c <;> decide

theorem foldl_pick_of_not_beats {p : Bool × ℕ} (h : ∀ c, ¬ beats isMin c p.1)
    (l : List (Bool × ℕ)) : l.foldl (pick (beats isMin)) (some p) = some p := by
  induction l with
  | nil => rfl
  | cons q l ih => rw [foldl_cons, pick, if_neg (h q.1), ih]

theorem loopRowindex_eq (isMin : Bool) (col : ColVal Bool) (is : List ℕ) (best : Option (Bool × ℕ)) :
    loopRowindex isMin col is best =
      (is.filterMap fun i => col[i]?.join.map (·, i)).foldl (pick (beats isMin)) best := by
  induction is generalizing best with
  | nil => rfl
  | cons i is ih =>
    rw [filterMap_cons]
    cases hv : col[i]?.join with
    | none =>
      simp only [loopRowindex, hv]
      exact ih best
    | some v =>
      cases best with
      | none =>
        simp only [loopRowindex, hv]
        exact ih _
      | some b =>
        simp only [loopRowindex, hv, Option.map_some, foldl_cons, pick]
        by_cases hb : beats isMin v b.1
        · have hstop : ∀ c, ¬ beats isMin c (v, i).1 := fun c => not_beats_of_beats hb
          rw [if_pos hb, if_pos hb, foldl_pick_of_not_beats hstop]
        · rw [if_neg hb, if_neg hb]
          exact ih _

theorem boolOps_scans (isMin : Bool) : boolOps.Scans isMin (fun _ => True) fun _ => true where
  better _ _ := rfl
  scan col start stop _ := by
    rw [filter_eq_self.mpr fun _ _ => rfl]
    exact loopRowindex_eq isMin col _ none

/-! ### Minimum and maximum of a column -/

namespace ColMeta

variable {α : Type*}

@[simp] theorem extreme_setExtreme (isMin : Bool) (v : α) (t : ℤ) (m : ColMeta α) :
    (m.setExtreme isMin v t).extreme isMin = some (v, t) := by
  cases isMin <;> rfl

@[simp] theorem setExtreme_setExtreme (isMin : Bool) (v w : α) (t u : ℤ) (m : ColMeta α) :
    (m.setExtreme isMin v t).setExtreme isMin w u = m.setExtreme isMin w u := by
  cases isMin <;> rfl

variable [LinearOrder α]

/-- Keep the better of the extreme so far and another entry. -/
def improve (isMin : Bool) (m : ColMeta α) : Option (α × ℤ) → ColMeta α
  | none => m
  | some p =>
    if (m.extreme isMin).all fun orig => beats isMin p.1 orig.1 then m.setExtreme isMin p.1 p.2 else m

theorem improve_of_none {isMin : Bool} {m : ColMeta α} (h : m.extreme isMin = none)
    (o : Option (α × ℤ)) : m.improve isMin o = o.elim m fun p => m.setExtreme isMin p.1 p.2 := by
  cases o with
  | none => rfl
  | some p => simp [improve, h]

theorem improve_setExtreme (isMin : Bool) (m : ColMeta α) (p q : α × ℤ) :
    (m.setExtreme isMin p.1 p.2).improve isMin (some q) =
      if beats isMin q.1 p.1 then m.setExtreme isMin q.1 q.2 else m.setExtreme isMin p.1 p.2 := by
  simp [improve]

theorem improve_improve (isMin : Bool) (m : ColMeta α) (a b : Option (α × ℤ)) :
    (m.improve isMin a).improve isMin b = m.improve isMin (pickBest (beats isMin) a b) := by
  cases b with
  | none => rfl
  | some q =>
    cases a with
    | none => rfl
    | some p =>
      rw [pickBest_some, pick]
      cases ho : m.extreme isMin with
      | none =>
        rw [improve_of_none ho (some p), improve_of_none ho, Option.elim_some, improve_setExtreme]
        split_ifs <;> rfl
      | some o =>
        by_cases hp : beats isMin p.1 o.1 <;> by_cases hq : beats isMin q.1 p.1
        · have := trans_of (beats isMin) hq hp
          simp [improve, ho, hp, hq, this]
        · simp [improve, ho, hp, hq]
        · simp [improve, ho, hp, hq]
        · have := IsOrderConnected.neg_trans hq hp
          simp [improve, ho, hp, hq, this]

end ColMeta

section MinMax

variable {α : Type*} [LinearOrder α] {ops : FieldOps α} {isMin : Bool} {valid : α → Prop}
  {keep : α → Bool} (hops : ops.Scans isMin valid keep) {c : AggColumn α} (hc : c.WF)
  (hvalid : ∀ s ∈ c.segs, ∀ v, some v ∈ s.col → valid v) (tr : TimeRange)

include hops hc hvalid

/-- The entry a segment is searched for, as a value with its time. -/
theorem map_scan {s : AggSegment α} (hs : s ∈ c.segs) :
    (ops.scan isMin s.col (findRowIdxStart s.times tr.min) (findRowIdxStop s.times tr.max)).map
      (fun p => (p.1, s.times[p.2]?.getD 0)) =
      firstBest (beats isMin) ((s.inRange tr).filter fun p => keep p.1) := by
  have hlen := hc.aligned s hs
  have hasc := hc.seg_ascending hs
  rw [hops.scan _ _ _ (hvalid s hs), inRange, rows,
    ← extract_findRowIdx hlen hasc tr, ← map_nonNil hlen _ _ (findRowIdxStop_le hasc _),
    filter_map]
  exact (firstBest_map (beats isMin) (fun i => s.times[i]?.getD 0) _).symm

/-- **One segment** offers the first best of its values in the range. -/
theorem readMinMaxRowIndex_fst {s : AggSegment α} (hs : s ∈ c.segs) (colMeta : ColMeta α) :
    (readMinMaxRowIndex ops tr isMin s colMeta).1 =
      colMeta.improve isMin (firstBest (beats isMin) ((s.inRange tr).filter fun p => keep p.1)) := by
  have hscan := map_scan hops hc hvalid tr hs
  rw [readMinMaxRowIndex]
  split_ifs with hstart
  · -- no row of the segment is late enough
    have hnil : s.inRange tr = [] := by
      have hstop : findRowIdxStop s.times tr.max ≤ findRowIdxStart s.times tr.min :=
        hstart ▸ findRowIdxStop_le (hc.seg_ascending hs) _
      rw [inRange, rows, ← extract_findRowIdx (hc.aligned s hs) (hc.seg_ascending hs) tr, extract_of_le _ hstop]
      rfl
    rw [hnil]
    rfl
  · rw [← hscan]
    cases ops.scan isMin s.col (findRowIdxStart s.times tr.min) (findRowIdxStop s.times tr.max) with
    | none => rfl
    | some p =>
      simp only [hops.better, Option.map_some, ColMeta.improve]
      split_ifs <;> rfl

/-- **Scanning the segments** offers the first best of all values in the range. -/
theorem readMinMaxFromData_fst {segs : List (AggSegment α)} (hsub : ∀ s ∈ segs, s ∈ c.segs) (i : ℕ)
    (colMeta : ColMeta α) (row : Option (ℕ × ℕ)) :
    (readMinMaxFromData ops tr isMin segs i (colMeta, row)).1 = colMeta.improve isMin (firstBest (beats isMin)
        ((segs.flatMap (inRange tr)).filter fun p => keep p.1)) := by
  induction segs generalizing i colMeta row with
  | nil => rfl
  | cons s segs ih =>
    have hs := hsub s mem_cons_self
    have ih := ih fun s hs => hsub s (mem_cons_of_mem _ hs)
    rw [readMinMaxFromData, flatMap_cons, filter_append, firstBest_append]
    split_ifs with hover
    · rw [ih, readMinMaxRowIndex_fst hops hc hvalid tr hs, ColMeta.improve_improve]
    · rw [ih, hc.inRange_of_not_overlaps hs (Bool.eq_false_iff.mpr hover), filter_nil, firstBest_nil, none_pickBest]

theorem readMinMaxFromData_eq (colMeta : ColMeta α) : (readMinMaxFromData ops tr isMin c.segs 0 (colMeta, none)).1 =
      colMeta.improve isMin (firstBest (beats isMin) ((c.inRange tr).filter fun p => keep p.1)) := by
  rw [AggColumn.inRange_eq_flatMap]
  exact readMinMaxFromData_fst hops hc hvalid tr (fun _ hs => hs) 0 colMeta none

end MinMax

/-! ### Sum and count of a column -/

theorem foldl_int64 (values : List ℤ) (s : ℤ) :
    values.foldl (fun s n => int64 (s + n)) (int64 s) = int64 (s + values.sum) := by
  induction values generalizing s with
  | nil => simp
  | cons v values ih => rw [foldl_cons, int64_int64_add, ih, sum_cons, Int.add_assoc]

theorem addSum_eq (values : List ℤ) (colMeta : ColMeta ℤ) : addSum values colMeta = if values.isEmpty then colMeta
      else colMeta.setSum (some (int64 (values.sum + colMeta.sum.getD 0))) := by
  have hsum : values.foldl (fun s n => int64 (s + n)) 0 = int64 values.sum := by
    simpa [show int64 0 = 0 from rfl] using foldl_int64 values 0
  rw [addSum, hsum]
  cases colMeta.sum with
  | none => simp
  | some s => simp only [int64_int64_add, Option.getD_some]

theorem addSum_addSum (xs ys : List ℤ) (colMeta : ColMeta ℤ) :
    addSum ys (addSum xs colMeta) = addSum (xs ++ ys) colMeta := by
  simp only [addSum_eq]
  cases xs with
  | nil => rfl
  | cons x xs =>
    cases ys with
    | nil => simp
    | cons y ys =>
      simp only [isEmpty_cons, Bool.false_eq_true, if_false, ColMeta.setSum, Option.getD_some, int64_add_int64,
        sum_append]
      congr 3
      omega

theorem addCount_addCount {α : Type*} (a b : ℕ) (colMeta : ColMeta α) :
    addCount b (addCount a colMeta) = addCount ↑(a + b) colMeta := by
  unfold addCount
  by_cases ha : a = 0
  · simp [ha]
  · by_cases hb : b = 0
    · simp [hb]
    · have hab : a + b ≠ 0 := by omega
      simp only [ne_eq, Nat.cast_eq_zero, ha, hb, hab, not_false_eq_true, if_true, ColMeta.setCount, Option.getD_some]
      congr 2
      push_cast
      omega

section SumCount

variable {α : Type*} {c : AggColumn α} (hc : c.WF) (tr : TimeRange)

include hc

theorem map_fst_inRange {s : AggSegment α} (hs : s ∈ c.segs) : (s.inRange tr).map Prod.fst =
      (s.col.extract (findRowIdxStart s.times tr.min) (findRowIdxStop s.times tr.max)).filterMap id := by
  have hlen := hc.aligned s hs
  rw [inRange, rows, ← extract_findRowIdx hlen (hc.seg_ascending hs) tr, valued, map_filterMap]
  conv_rhs => rw [← map_snd_zip hlen.le, ← map_extract, filterMap_map]
  congr 1
  funext p
  cases h : p.2 <;> simp [h]

/-- Rows in the wrong order are counted as rows that are missing, unless the column has a null. -/
theorem validCount_eq {s : AggSegment α} (hs : s ∈ c.segs)
    (hcount : (∀ t ∈ s.times, tr.max < t → tr.min ≤ t) ∨ none ∈ s.col) :
    validCount s.col (findRowIdxStart s.times tr.min) (findRowIdxStop s.times tr.max) = (s.inRange tr).length := by
  have hlen := hc.aligned s hs
  have hstop := findRowIdxStop_le (hc.seg_ascending hs) tr.max
  have hnonNil : (nonNil s.col (findRowIdxStart s.times tr.min) (findRowIdxStop s.times tr.max)).length =
      (s.inRange tr).length := by
    rw [inRange, rows, ← extract_findRowIdx hlen (hc.seg_ascending hs) tr, ← map_nonNil hlen _ _ hstop, length_map]
  have hfst := map_fst_inRange hc tr hs
  rw [validCount]
  split_ifs with hnone hsome
  · rw [← length_map Prod.fst, hfst, filterMap_eq_nil_iff.mpr, length_nil]
    · rfl
    · intro v hv
      exact Option.isNone_iff_eq_none.mp (all_eq_true.mp hnone v (mem_of_mem_extract hv))
  · have hle := (findRowIdxStart_le_stop_iff (hc.seg_ascending hs) tr).mpr <|
      hcount.resolve_right fun h => absurd (all_eq_true.mp hsome _ h) (by simp)
    have hall : ∀ v ∈ s.col.extract (findRowIdxStart s.times tr.min) (findRowIdxStop s.times tr.max),
        (id v).isSome := fun v hv => all_eq_true.mp hsome v (mem_of_mem_extract hv)
    rw [← length_map Prod.fst, hfst, filterMap_length_eq_length.mpr hall, length_extract]
    omega
  · rw [hnonNil]

theorem validCount_ne_zero {s : AggSegment α} (hs : s ∈ c.segs)
    (hcount : ¬ ((∀ t ∈ s.times, tr.max < t → tr.min ≤ t) ∨ none ∈ s.col)) :
    validCount s.col (findRowIdxStart s.times tr.min) (findRowIdxStop s.times tr.max) ≠ 0 := by
  rw [not_or, ← findRowIdxStart_le_stop_iff (hc.seg_ascending hs)] at hcount
  have hsome : s.col.all Option.isSome = true := all_eq_true.mpr fun v hv =>
    Option.isSome_iff_ne_none.mpr fun h => hcount.2 (h ▸ hv)
  have hne : s.col ≠ [] := by
    rw [← length_pos_iff, hc.aligned s hs]
    exact length_pos_iff.mpr (hc.seg_ne s hs)
  have hnone : ¬ s.col.all Option.isNone = true := fun h => by
    obtain ⟨v, hv⟩ := exists_mem_of_ne_nil _ hne
    have h1 := all_eq_true.mp h v hv
    have h2 := all_eq_true.mp hsome v hv
    cases v <;> simp_all
  rw [validCount, if_neg hnone, if_pos hsome]
  omega

/-- A loop over the segments that overlap the range, if each segment adds its values in the range. -/
theorem foldlM_overlapping {M : Type*} {f : AggSegment α → M → Option M} (add : List (α × ℤ) → M → M)
    (hnil : ∀ m, add [] m = m) (happ : ∀ xs ys m, add ys (add xs m) = add (xs ++ ys) m)
    (hf : ∀ s ∈ c.segs, tr.overlaps s.minTime s.maxTime = true → ∀ m, f s m = some (add (s.inRange tr) m)) (m : M) :
    c.segs.foldlM (fun m s => if tr.overlaps s.minTime s.maxTime then f s m else some m) m =
      some (add (c.inRange tr) m) := by
  have hstep : ∀ s ∈ c.segs, ∀ m, (if tr.overlaps s.minTime s.maxTime then f s m else some m) =
      some (add (s.inRange tr) m) := by
    intro s hs m
    split_ifs with hover
    · exact hf s hs hover m
    · rw [hc.inRange_of_not_overlaps hs (Bool.eq_false_iff.mpr hover), hnil]
  rw [AggColumn.inRange_eq_flatMap]
  generalize c.segs = segs at hstep
  induction segs generalizing m with
  | nil => exact congrArg some (hnil m).symm
  | cons s segs ih =>
    rw [foldlM_cons, hstep s mem_cons_self, Option.bind_eq_bind, Option.bind_some, flatMap_cons, ← happ]
    exact ih (add (s.inRange tr) m) fun s hs => hstep s (mem_cons_of_mem _ hs)

/-- The segments that overlap an inverted range have no row between its ends, or a null. -/
def AggColumn.Countable (tr : TimeRange) (c : AggColumn α) : Prop :=
  ∀ s ∈ c.segs, tr.overlaps s.minTime s.maxTime = true → (∀ t ∈ s.times, tr.max < t → tr.min ≤ t) ∨ none ∈ s.col

theorem readSumCountFromData_count (ops : FieldOps α) (hcount : c.Countable tr) (colMeta : ColMeta α) :
    readSumCountFromData ops tr false c colMeta = some (addCount (c.inRange tr).length colMeta) := by
  refine foldlM_overlapping hc tr (fun xs => addCount xs.length) (fun m => rfl) (fun xs ys m => ?_)
    (fun s hs hover m => ?_) colMeta
  · rw [addCount_addCount, length_append]
  · rw [← validCount_eq hc tr hs (hcount s hs hover)]
    rfl

/-- A count that is not countable is set. -/
theorem isSetFlag_of_not_countable (ops : FieldOps α) (hcount : ¬ c.Countable tr) (colMeta : ColMeta α) :
    ∀ m ∈ readSumCountFromData ops tr false c colMeta, m.isSetFlag = true := by
  have hkeep : ∀ (count : ℤ) (m : ColMeta α), count ≠ 0 ∨ m.isSetFlag = true → (addCount count m).isSetFlag = true := by
    intro count m h
    rw [addCount]
    split_ifs with hzero
    · rfl
    · exact h.resolve_left hzero
  simp only [AggColumn.Countable, not_forall] at hcount
  obtain ⟨s, hs, hover, hnot⟩ := hcount
  obtain ⟨front, back, hsegs⟩ := append_of_mem hs
  intro m hm
  simp only [readSumCountFromData, hsegs, foldlM_append, foldlM_cons, Option.bind_eq_bind, Option.mem_def,
    Option.bind_eq_some_iff, if_pos hover] at hm
  obtain ⟨m1, -, m2, hm2, hm⟩ := hm
  have hset : m2.isSetFlag = true := by
    cases hm2
    exact hkeep _ _ (.inl (validCount_ne_zero hc tr hs hnot))
  clear hsegs hm2
  induction back generalizing m2 with
  | nil =>
    cases hm
    exact hset
  | cons s' back ih =>
    simp only [foldlM_cons, Option.bind_eq_bind, Option.bind_eq_some_iff] at hm
    obtain ⟨m3, hm3, hm⟩ := hm
    refine ih m3 hm ?_
    split_ifs at hm3
    · cases hm3
      exact hkeep _ _ (.inr hset)
    · cases hm3
      exact hset

end SumCount

/-- The segments that overlap an inverted range have no row between its ends; or a null, no value between its ends, and
the rows there are in one byte of the bitmap. -/
def AggColumn.Summable (tr : TimeRange) (c : AggColumn ℤ) : Prop :=
  ∀ s ∈ c.segs, tr.overlaps s.minTime s.maxTime = true → (∀ t ∈ s.times, tr.max < t → tr.min ≤ t) ∨ none ∈ s.col ∧
    findRowIdxStart s.times tr.min / 8 < (findRowIdxStop s.times tr.max + 7) / 8 ∧
    (s.col.extract (findRowIdxStop s.times tr.max) (findRowIdxStart s.times tr.min)).filterMap id = []

section Sum

variable {c : AggColumn ℤ} (hc : c.WF) (tr : TimeRange) (colMeta : ColMeta ℤ)

include hc

theorem readSumCountFromData_sum (hsum : c.Summable tr) :
    readSumCountFromData intOps tr true c colMeta = some (addSum ((c.inRange tr).map Prod.fst) colMeta) := by
  refine foldlM_overlapping hc tr (fun xs => addSum (xs.map Prod.fst)) (fun m => rfl)
    (fun xs ys m => ?_) (fun s hs hover m => ?_) colMeta
  · rw [addSum_addSum, map_append]
  · have hfst := map_fst_inRange hc tr hs
    rw [hfst]
    show (subIntegerValues _ _ _).map _ = _
    by_cases hle : findRowIdxStart s.times tr.min ≤ findRowIdxStop s.times tr.max
    · rw [subIntegerValues, if_pos hle]
      rfl
    · have hnull := (hsum s hs hover).resolve_left <| mt (findRowIdxStart_le_stop_iff (hc.seg_ascending hs) tr).mpr hle
      rw [subIntegerValues, if_neg hle, if_pos hnull, extract_of_le _ (not_le.mp hle).le]
      rfl

theorem readSumCountFromData_sum_none (hsum : ¬ c.Summable tr) :
    readSumCountFromData intOps tr true c colMeta = none := by
  simp only [AggColumn.Summable, not_forall] at hsum
  obtain ⟨s, hs, hover, hnot⟩ := hsum
  obtain ⟨front, back, hsegs⟩ := append_of_mem hs
  rw [not_or, ← findRowIdxStart_le_stop_iff (hc.seg_ascending hs)] at hnot
  have hnone : ∀ m, readSumCountSegment intOps tr true s m = none := fun m => by
    show (subIntegerValues _ _ _).map _ = _
    rw [subIntegerValues, if_neg hnot.1, if_neg hnot.2]
    rfl
  rw [readSumCountFromData, hsegs, foldlM_append]
  simp [foldlM_cons, hover, hnone]

end Sum

end GeminiTS
