import GeminiTS.Immutable.ReadAgg

/-!
# ChunkAggregates — aggregates of a chunk against those of its rows

* `chunkAggregates_answered_iff` — when that is so; `chunkAggregates_unanswered` shows three columns for
  which it is not.
-/

namespace GeminiTS

open Lib List

variable {α : Type*} [LinearOrder α]

/-- The stored pre-aggregates are those of the values. -/
structure PreAgg.Describes (a : PreAgg α) (values : List (α × ℤ)) : Prop where
  count : a.count = values.length
  extreme : ∀ isMin, values ≠ [] → firstBest (beats isMin) values = some (a.extreme isMin)

/-- An integer column of a chunk. -/
structure IntColumn extends AggColumn ℤ where
  wf : toAggColumn.WF
  isInt64 : ∀ s ∈ segs, ∀ v, some v ∈ s.col → IsInt64 v
  describes : preAgg.Describes (valued toAggColumn.rows)
  sum : preAgg.sum = some (int64 ((valued toAggColumn.rows).map Prod.fst).sum)

/-- A boolean column of a chunk; it has no sum. -/
structure BoolColumn extends AggColumn Bool where
  wf : toAggColumn.WF
  describes : preAgg.Describes (valued toAggColumn.rows)
  sum : preAgg.sum = none

/-- The value is the smallest (greatest) one, and `t` the first time it occurs. -/
def IsExtreme (isMin : Bool) (values : List (α × ℤ)) (v : α) (t : ℤ) : Prop :=
  ∃ before after, values = before ++ (v, t) :: after ∧ (∀ p ∈ before, beats isMin v p.1) ∧
    ∀ p ∈ after, ¬ beats isMin p.1 v

/-- The minimum (maximum) is that of the values and is unset if there are none. -/
def ColMeta.HasExtreme (isMin : Bool) (values : List (α × ℤ)) (m : ColMeta α) : Prop :=
  (∀ v t, m.extreme isMin = some (v, t) ↔ IsExtreme isMin values v t) ∧ (m.isSetFlag = true ↔ values ≠ [])

omit [LinearOrder α] in
/-- The count is that of the values and is unset if there are none. -/
def ColMeta.HasCount (values : List (α × ℤ)) (m : ColMeta α) : Prop :=
  m.count = (if values = [] then none else some (values.length : ℤ)) ∧ (m.isSetFlag = true ↔ values ≠ [])

/-- The sum is that of the values and is unset if there are none. -/
def ColMeta.HasSum (values : List (ℤ × ℤ)) (m : ColMeta ℤ) : Prop :=
  m.sum = (if values = [] then none else some (int64 (values.map Prod.fst).sum)) ∧ (m.isSetFlag = true ↔ values ≠ [])

/-- Every aggregate read into a fresh record is that of the rows in the range. -/
structure IntColumn.Answered (c : IntColumn) (tr : TimeRange) : Prop where
  extreme : ∀ isMin readAux, (readMinMax intOps tr isMin readAux c.toAggColumn ColMeta.init).colMeta.HasExtreme
    isMin (c.inRange tr)
  sum : ∃ m ∈ readSumCount intOps tr true c.toAggColumn ColMeta.init, m.HasSum (c.inRange tr)
  count : ∃ m ∈ readSumCount intOps tr false c.toAggColumn ColMeta.init, m.HasCount (c.inRange tr)

/-- Every aggregate read into a fresh record is that of the rows in the range. -/
structure BoolColumn.Answered (c : BoolColumn) (tr : TimeRange) : Prop where
  extreme : ∀ isMin readAux, (readMinMax boolOps tr isMin readAux c.toAggColumn ColMeta.init).colMeta.HasExtreme
    isMin (c.inRange tr)
  count : ∃ m ∈ readSumCount boolOps tr false c.toAggColumn ColMeta.init, m.HasCount (c.inRange tr)

/-! ### Metadata that holds one aggregate -/

variable {values : List (α × ℤ)} {isMin : Bool} {tr : TimeRange} (c : IntColumn)

theorem firstBest_eq_some_iff_isExtreme {v : α} {t : ℤ} :
    firstBest (beats isMin) values = some (v, t) ↔ IsExtreme isMin values v t :=
  firstBest_eq_some (beats isMin)

/-- A fresh record offered one entry has the right extreme exactly if the entry is the best one. -/
theorem hasExtreme_improve {o : Option (α × ℤ)} :
    (ColMeta.init.improve isMin o).HasExtreme isMin values ↔ o = firstBest (beats isMin) values := by
  have hinit : (ColMeta.init : ColMeta α).extreme isMin = none := by cases isMin <;> rfl
  have hextreme : (ColMeta.init.improve isMin o).extreme isMin = o := by
    rw [ColMeta.improve_of_none hinit]
    cases o with
    | none => exact hinit
    | some p => exact ColMeta.extreme_setExtreme isMin p.1 p.2 _
  have hflag : (ColMeta.init.improve isMin o).isSetFlag = o.isSome := by
    cases o with
    | none => rfl
    | some p => cases isMin <;> rfl
  rw [ColMeta.HasExtreme, hextreme, hflag]
  constructor
  · rintro ⟨h, -⟩
    refine Option.ext fun p => ?_
    exact (h p.1 p.2).trans firstBest_eq_some_iff_isExtreme.symm
  · rintro rfl
    exact ⟨fun v t => firstBest_eq_some_iff_isExtreme, firstBest_isSome (beats isMin)⟩

omit [LinearOrder α] in
theorem hasCount_addCount (values : List (α × ℤ)) :
    (addCount values.length (ColMeta.init : ColMeta α)).HasCount values := by
  cases values with
  | nil => exact ⟨rfl, by simp [addCount, ColMeta.init]⟩
  | cons p values =>
    have hne : ((p :: values).length : ℤ) ≠ 0 := Nat.cast_ne_zero.mpr (Nat.succ_ne_zero _)
    rw [addCount, if_pos hne]
    simp [ColMeta.HasCount, ColMeta.setCount, ColMeta.init]

theorem hasSum_addSum (values : List (ℤ × ℤ)) : (addSum (values.map Prod.fst) ColMeta.init).HasSum values := by
  rw [addSum_eq]
  cases values with
  | nil => exact ⟨rfl, by simp [ColMeta.init]⟩
  | cons p values => simp [ColMeta.HasSum, ColMeta.setSum, ColMeta.init]

/-! ### Answers from the stored pre-aggregates -/

section Stored

variable {ops : FieldOps α} {c : AggColumn α} (hc : c.WF) (hd : c.preAgg.Describes (valued c.rows))
  {tr : TimeRange} (hall : c.allRowsInRange tr = true)

include hc hd hall

theorem readMinMax_stored (isMin readAux : Bool) :
    (readMinMax ops tr isMin readAux c ColMeta.init).colMeta.HasExtreme isMin (c.inRange tr) ↔ c.inRange tr ≠ [] := by
  have hread : (readMinMax ops tr isMin readAux c ColMeta.init).colMeta =
      ColMeta.init.improve isMin (some (c.preAgg.extreme isMin)) := by
    rw [readMinMax, if_pos hall]
    cases isMin <;> rfl
  rw [hread, hasExtreme_improve, hc.inRange_of_allRowsInRange hall]
  constructor
  · intro h
    exact (firstBest_isSome (beats isMin)).mp (h ▸ rfl)
  · exact fun hne => (hd.extreme isMin hne).symm

theorem readSumCount_count_stored :
    ∃ m ∈ readSumCount ops tr false c ColMeta.init, m.HasCount (c.inRange tr) := by
  have hread : readSumCount ops tr false c ColMeta.init = some (addCount (c.inRange tr).length ColMeta.init) := by
    rw [readSumCount, if_pos hall, hd.count, hc.inRange_of_allRowsInRange hall, addCount]
    simp [ColMeta.init]
  exact ⟨_, hread, hasCount_addCount (c.inRange tr)⟩

end Stored

theorem readSumCount_sum_stored (hall : c.allRowsInRange tr = true) :
    (∃ m ∈ readSumCount intOps tr true c.toAggColumn ColMeta.init, m.HasSum (c.inRange tr)) ↔ c.inRange tr ≠ [] := by
  have hread : readSumCount intOps tr true c.toAggColumn ColMeta.init =
      some (ColMeta.init.setSum (some (int64 ((c.inRange tr).map Prod.fst).sum))) := by
    rw [readSumCount, if_pos hall, c.sum, c.wf.inRange_of_allRowsInRange hall]
    rfl
  rw [hread]
  by_cases hne : c.inRange tr = [] <;> simp [ColMeta.HasSum, ColMeta.setSum, hne]

/-! ### Answers from the data -/

section Scanned

variable {ops : FieldOps α} {isMin : Bool} {valid : α → Prop} {keep : α → Bool}
  (hops : ops.Scans isMin valid keep) {c : AggColumn α} (hc : c.WF)
  (hvalid : ∀ s ∈ c.segs, ∀ v, some v ∈ s.col → valid v) {tr : TimeRange}
  (hall : ¬ c.allRowsInRange tr = true)

include hops hc hvalid hall

theorem readMinMax_scanned (readAux : Bool) :
    (readMinMax ops tr isMin readAux c ColMeta.init).colMeta.HasExtreme isMin (c.inRange tr) ↔
      firstBest (beats isMin) ((c.inRange tr).filter fun p => keep p.1) = firstBest (beats isMin) (c.inRange tr) := by
  have hread : (readMinMax ops tr isMin readAux c ColMeta.init).colMeta =
      (readMinMaxFromData ops tr isMin c.segs 0 (ColMeta.init, none)).1 := by
    rw [readMinMax, if_neg hall]
  rw [hread, readMinMaxFromData_eq hops hc hvalid tr, hasExtreme_improve]

end Scanned

omit [LinearOrder α] in
/-- Only a range with its ends in the wrong order is not countable, and no row is in it. -/
theorem inRange_of_not_countable {c : AggColumn α} (hcount : ¬ c.Countable tr) : c.inRange tr = [] := by
  simp only [AggColumn.Countable, not_forall, not_or] at hcount
  obtain ⟨s, -, -, ⟨t, -, hmax, hmin⟩, -⟩ := hcount
  rw [AggColumn.inRange, filter_eq_nil_iff.mpr]
  · rfl
  · intro p _ hin
    simp only [TimeRange.has, Bool.and_eq_true, decide_eq_true_eq] at hin
    omega

omit [LinearOrder α] in
theorem readSumCount_count_scanned (ops : FieldOps α) {c : AggColumn α} (hc : c.WF)
    (hall : ¬ c.allRowsInRange tr = true) :
    (∃ m ∈ readSumCount ops tr false c ColMeta.init, m.HasCount (c.inRange tr)) ↔ c.Countable tr := by
  rw [readSumCount, if_neg hall]
  constructor
  · rintro ⟨m, hm, hhas⟩
    by_contra hcount
    exact hhas.2.mp (isSetFlag_of_not_countable hc tr ops hcount _ m hm) (inRange_of_not_countable hcount)
  · exact fun hcount => ⟨_, readSumCountFromData_count hc tr ops hcount _, hasCount_addCount (c.inRange tr)⟩

theorem readSumCount_sum_scanned (hall : ¬ c.allRowsInRange tr = true) :
    (∃ m ∈ readSumCount intOps tr true c.toAggColumn ColMeta.init, m.HasSum (c.inRange tr)) ↔ c.Summable tr := by
  rw [readSumCount, if_neg hall]
  constructor
  · rintro ⟨m, hm, -⟩
    by_contra hsum
    rw [readSumCountFromData_sum_none c.wf tr _ hsum] at hm
    cases hm
  · exact fun hsum => ⟨_, readSumCountFromData_sum c.wf tr _ hsum, hasSum_addSum (c.inRange tr)⟩

theorem AggColumn.Summable.countable {c : AggColumn ℤ} (h : c.Summable tr) : c.Countable tr :=
  fun s hs hover => (h s hs hover).imp_right And.left

theorem IntColumn.isInt64_of_mem_inRange {p : ℤ × ℤ} (hp : p ∈ c.inRange tr) : IsInt64 p.1 := by
  obtain ⟨row, hrow, hval⟩ := mem_filterMap.mp hp
  obtain ⟨s, hs, hrow⟩ := mem_flatMap.mp (mem_of_mem_filter hrow)
  have hcol : row.2 ∈ s.col := (of_mem_zip hrow).2
  obtain ⟨v, hv, rfl⟩ := Option.map_eq_some_iff.mp hval
  exact c.isInt64 s hs v (hv ▸ hcol)

/-- The start value of the scan may be passed over if there is another value, or none at all. -/
theorem IntColumn.firstBest_scan (tr : TimeRange) (isMin : Bool) :
    firstBest (beats isMin) ((c.inRange tr).filter fun p => p.1 ≠ sentinel isMin) =
        firstBest (beats isMin) (c.inRange tr) ↔
      (c.inRange tr ≠ [] → ∃ p ∈ c.inRange tr, p.1 ≠ sentinel isMin) := by
  have hm : ∀ p ∈ c.inRange tr, p.1 = sentinel isMin ∨ beats isMin p.1 (sentinel isMin) :=
    fun p hp => beats_sentinel (c.isInt64_of_mem_inRange hp)
  constructor
  · intro h hne
    -- the best value was kept, so it is another one
    have hsome := (firstBest_isSome (beats isMin)).mpr hne
    obtain ⟨p, hp⟩ := Option.isSome_iff_exists.mp (h ▸ hsome)
    have hmem := mem_filter.mp (mem_of_firstBest (beats isMin) hp)
    exact ⟨p, hmem.1, by simpa using hmem.2⟩
  · intro hex
    by_cases hne : c.inRange tr = []
    · rw [hne]
      rfl
    · exact firstBest_filter_ne_of_exists (beats isMin) hm (hex hne)

/-! ### When the answers are right -/

/-- If all rows are in the range some row has a value; otherwise, if some row in the range has a
value, not all of them are the greatest 64-bit integer and not all are the smallest, and the column can be summed. -/
def IntColumn.Answerable (c : IntColumn) (tr : TimeRange) : Prop :=
  if c.allRowsInRange tr then c.inRange tr ≠ []
  else (c.inRange tr ≠ [] → (∃ p ∈ c.inRange tr, p.1 ≠ maxInt64) ∧ ∃ p ∈ c.inRange tr, p.1 ≠ minInt64) ∧
    c.Summable tr

/-- If all rows are in the range some row has a value; otherwise the column can be counted. -/
def BoolColumn.Answerable (c : BoolColumn) (tr : TimeRange) : Prop :=
  if c.allRowsInRange tr then c.inRange tr ≠ [] else c.Countable tr

theorem IntColumn.answered_iff_answerable (tr : TimeRange) : c.Answered tr ↔ c.Answerable tr := by
  rw [IntColumn.Answerable]
  split_ifs with hall
  · have hextreme : ∀ isMin readAux,
        (readMinMax intOps tr isMin readAux c.toAggColumn ColMeta.init).colMeta.HasExtreme isMin
          (c.inRange tr) ↔ c.inRange tr ≠ [] := readMinMax_stored c.wf c.describes hall
    constructor
    · exact fun h => (readSumCount_sum_stored c hall).mp h.sum
    · exact fun hne => ⟨fun isMin readAux => (hextreme isMin readAux).mpr hne,
        (readSumCount_sum_stored c hall).mpr hne, readSumCount_count_stored c.wf c.describes hall⟩
  · have hextreme := fun isMin readAux =>
      (readMinMax_scanned (intOps_scans isMin) c.wf c.isInt64 hall readAux).trans (c.firstBest_scan tr isMin)
    have hsum := readSumCount_sum_scanned c hall
    constructor
    · exact fun h => ⟨fun hne => ⟨(hextreme true false).mp (h.extreme true false) hne,
        (hextreme false false).mp (h.extreme false false) hne⟩, hsum.mp h.sum⟩
    · rintro ⟨h, hs⟩
      refine ⟨fun isMin readAux => (hextreme isMin readAux).mpr fun hne => ?_, hsum.mpr hs,
        (readSumCount_count_scanned _ c.wf hall).mpr hs.countable⟩
      cases isMin with
      | true => exact (h hne).1
      | false => exact (h hne).2

theorem BoolColumn.answered_iff_answerable (c : BoolColumn) (tr : TimeRange) : c.Answered tr ↔ c.Answerable tr := by
  rw [BoolColumn.Answerable]
  split_ifs with hall
  · have hextreme : ∀ isMin readAux,
        (readMinMax boolOps tr isMin readAux c.toAggColumn ColMeta.init).colMeta.HasExtreme isMin
          (c.inRange tr) ↔ c.inRange tr ≠ [] := readMinMax_stored c.wf c.describes hall
    constructor
    · exact fun h => (hextreme true false).mp (h.extreme true false)
    · exact fun h => ⟨fun isMin readAux => (hextreme isMin readAux).mpr h,
        readSumCount_count_stored c.wf c.describes hall⟩
  · have hcount := readSumCount_count_scanned boolOps c.wf hall
    refine ⟨fun h => hcount.mp h.count, fun h => ⟨fun isMin readAux => ?_, hcount.mpr h⟩⟩
    rw [readMinMax_scanned (boolOps_scans isMin) c.wf (fun _ _ _ _ => trivial) hall readAux,
      filter_eq_self.mpr fun _ _ => rfl]

/-- **Aggregates of a chunk** are those of its rows in the range, for integers and for booleans,
exactly if the column is answerable. -/
theorem chunkAggregates_answered_iff (tr : TimeRange) : (∀ c : IntColumn, c.Answered tr ↔ c.Answerable tr) ∧
      ∀ c : BoolColumn, c.Answered tr ↔ c.Answerable tr :=
  ⟨fun c => c.answered_iff_answerable tr, fun c => c.answered_iff_answerable tr⟩

/-- One row without a value. -/
def onlyNull : IntColumn where
  segs := [⟨[1], [none]⟩]
  preAgg := ⟨maxInt64, 0, minInt64, 0, some 0, 0⟩
  wf := ⟨by decide, by decide, by decide, by decide⟩
  isInt64 := by simp
  describes := ⟨rfl, by decide⟩
  sum := rfl

/-- Two rows, the second one with the greatest 64-bit integer. -/
def lateMaximum : IntColumn where
  segs := [⟨[1, 2], [some 0, some maxInt64]⟩]
  preAgg := ⟨0, 1, maxInt64, 2, some maxInt64, 2⟩
  wf := ⟨by decide, by decide, by decide, by decide⟩
  isInt64 := by simp [IsInt64, minInt64, maxInt64]
  describes := ⟨rfl, by decide⟩
  sum := by decide

/-- Three rows of booleans. -/
def threeFlags : BoolColumn where
  segs := [⟨[1, 4, 7], [some true, some false, some true]⟩]
  preAgg := ⟨false, 4, true, 1, none, 3⟩
  wf := ⟨by decide, by decide, by decide, by decide⟩
  describes := ⟨rfl, by decide⟩
  sum := rfl

/-- The minimum of `onlyNull` is set although it has no value, that of the second row of `lateMaximum`
is unset although it has one, and the row between the ends of an inverted range is counted as -1. -/
theorem chunkAggregates_unanswered :
    (readMinMax intOps ⟨1, 1⟩ true false onlyNull.toAggColumn ColMeta.init).colMeta.min =
        some (maxInt64, 0) ∧ onlyNull.inRange ⟨1, 1⟩ = [] ∧
      (readMinMax intOps ⟨2, 2⟩ true false lateMaximum.toAggColumn ColMeta.init).colMeta.min =
        none ∧ lateMaximum.inRange ⟨2, 2⟩ = [(maxInt64, 2)] ∧
      (readSumCount boolOps ⟨5, 3⟩ false threeFlags.toAggColumn ColMeta.init).map ColMeta.count = some (some (-1)) ∧
        threeFlags.inRange ⟨5, 3⟩ = [] ∧
      ¬ onlyNull.Answered ⟨1, 1⟩ ∧ ¬ lateMaximum.Answered ⟨2, 2⟩ ∧ ¬ threeFlags.Answered ⟨5, 3⟩ := by
  have hminus : (readSumCount boolOps ⟨5, 3⟩ false threeFlags.toAggColumn ColMeta.init).map ColMeta.count =
      some (some (-1)) := by decide +kernel
  have hnone : threeFlags.inRange ⟨5, 3⟩ = [] := by decide +kernel
  refine ⟨by decide +kernel, by decide +kernel, by decide +kernel, by decide +kernel, hminus, hnone, ?_, ?_, ?_⟩
  · intro h
    exact absurd ((h.extreme true false).2.mp (by decide +kernel)) (by decide +kernel)
  · intro h
    exact absurd ((h.extreme true false).2.mpr (by decide +kernel)) (by decide +kernel)
  · rintro ⟨-, m, hm, hcount, -⟩
    rw [Option.mem_def.mp hm, Option.map_some, hcount, if_pos hnone] at hminus
    cases hminus

end GeminiTS
