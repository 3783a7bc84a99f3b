import GeminiTS.Immutable.BooleanPreAgg
import GeminiTS.Lib.FirstBest

/-!
# PreAggTimes — the rows that stored aggregates point at

With the minimum and the maximum of a column the aggregates of a chunk keep the times of the first rows that hold them
(`addValues` in `engine/immutable/pre_aggregation.go`). A value is taken if it is better than the one that is kept;
integers start from the worst ones there are, and booleans take their times by the place among the values.

* `IntColumn.exact_iff` — when the stored aggregates of integers are exact; `greatest_missed` are some that are not.
* `BoolColumn.exact_iff_clear` — when those of booleans are; `null_shifts` are some that are not.
-/

namespace GeminiTS.Immutable

open Lib List

section Kept

variable {α β M S : Type*} (r : α → α → Prop) [DecidableRel r] [IsStrictTotalOrder α r]

/-- An entry that is replaced by each better row is the best one of the start and all rows. -/
theorem entry_foldl (entry : M → α × β) (addAll : M → S → M) (add : M → α × β → M) (rows : S → List (α × β))
    (hall : ∀ m s, entry (addAll m s) = entry ((rows s).foldl add m))
    (hadd : ∀ m p, some (entry (add m p)) = pick r (some (entry m)) p) (l : List S) (m : M) :
    some (entry (l.foldl addAll m)) = pickBest r (some (entry m)) (firstBest r (l.flatMap rows)) := by
  rw [← foldl_pick, foldl_flatMap]
  refine (foldl_hom (fun m => some (entry m)) fun m s => ?_).symm
  rw [hall]
  exact foldl_hom (fun m => some (entry m)) fun m p => (hadd m p).symm

/-- A start that is worse than all other values hides the first row with its own value. -/
theorem eq_pickBest_iff {v : α} {b : β} {e : α × β} {best : Option (α × β)} (hv : ∀ a, a = v ∨ r a v)
    (hbest : best.isSome)
    (he : some e = pickBest r (some (v, b)) best) : best = some e ↔ ∀ b', best = some (v, b') → b' = b := by
  obtain ⟨⟨a, t⟩, rfl⟩ := Option.isSome_iff_exists.mp hbest
  rw [pickBest_some, pick] at he
  rcases hv a with rfl | ha
  · rw [if_neg (irrefl_of r a)] at he
    cases he
    simp
  · rw [if_pos ha] at he
    cases he
    refine iff_of_true rfl ?_
    rintro b' ⟨⟩
    exact absurd ha (irrefl_of r v)

end Kept

/-! ### Integers -/

def IntChunk.rows (c : IntChunk) : List (Int64 × Int64) := c.flatMap fun s => valueRows s.col s.times

/-- The aggregates of rows. -/
structure IntegerPreAgg.Exact (rows : List (Int64 × Int64)) (m : IntegerPreAgg) : Prop where
  min : firstBest (· < ·) rows = some (m.min, m.minT)
  max : firstBest (· > ·) rows = some (m.max, m.maxT)
  sum : m.sum = Int64.ofInt (rows.map fun row => row.1.toInt).sum
  count : m.count.toInt = rows.length

open IntegerPreAgg

/-- A column with a value. -/
structure IntColumn where
  segments : IntChunk
  hasValue : segments.rows ≠ []
  fits : segments.rows.length < 2 ^ 63

namespace IntColumn

variable (c : IntColumn)

theorem map_fst_rows : c.segments.rows.map Prod.fst = c.segments.values := by
  rw [IntChunk.rows, map_flatMap]
  exact flatMap_congr fun s _ => map_fst_valueRows s.aligned

/-- A bound and its time are those of the first row that holds it, unless all rows hold the value of the start. -/
theorem bound_iff (r : Int64 → Int64 → Prop) [DecidableRel r] [IsStrictTotalOrder Int64 r]
    (entry : IntegerPreAgg → Int64 × Int64) {v : Int64} (hv : ∀ a, a = v ∨ r a v) (hreset : entry reset = (v, 0))
    (hcount : ∀ m n, entry { m with count := n } = entry m)
    (hadd : ∀ m p, some (entry (addValue m p.1 p.2)) = pick r (some (entry m)) p) :
    firstBest r c.segments.rows = some (entry c.segments.preAgg) ↔
      ∀ t, firstBest r c.segments.rows = some (v, t) → t = 0 := by
  refine eq_pickBest_iff r hv ((firstBest_isSome r).mpr c.hasValue) ?_
  rw [← hreset]
  exact entry_foldl r entry (fun m s => m.addValues s.col s.times) (fun m p => m.addValue p.1 p.2)
    (fun s => valueRows s.col s.times) (fun m s => by rw [addValues, hcount, foldl_valueRows]) hadd c.segments reset

theorem sum_rows : c.segments.preAgg.sum = Int64.ofInt (c.segments.rows.map fun row => row.1.toInt).sum := by
  have h (vs : List Int64) : vs.foldl (· + ·) 0 = Int64.ofInt (vs.map Int64.toInt).sum := by
    induction vs with
    | nil => rfl
    | cons v vs ih =>
      rw [foldl_cons, foldl_add, ih, map_cons, sum_cons, Int64.ofInt_add, Int64.ofInt_toInt, Int64.zero_add]
  rw [c.segments.sums_preAgg.sum, h, ← c.map_fst_rows, map_map]
  rfl

/-- **Exact aggregates of integers**: minimum and maximum are those of the first rows that hold them. The time is lost
of a minimum that is the greatest number and of a maximum that is the smallest; the form for one row keeps only the
minimum. -/
theorem exact_iff : (∃ m, unmarshal c.segments.preAgg.marshal = some m ∧ m.Exact c.segments.rows) ↔
    (∀ t, firstBest (· < ·) c.segments.rows = some (Int64.maxValue, t) → t = 0) ∧ (c.segments.rows.length = 1 ∨
      ∀ t, firstBest (· > ·) c.segments.rows = some (Int64.minValue, t) → t = 0) := by
  have hcount : c.segments.preAgg.count = Int64.ofNat c.segments.rows.length := by
    rw [c.segments.sums_preAgg.count, ← c.map_fst_rows, length_map]
  have hone : c.segments.preAgg.count = 1 ↔ c.segments.rows.length = 1 := by
    rw [hcount, ofNat_eq_one_iff c.fits]
  rw [← c.bound_iff (· < ·) (fun m => (m.min, m.minT))
    (fun a => (Int64.le_iff_lt_or_eq.mp (Int64.le_maxValue a)).symm) rfl
      (fun _ _ => rfl) (fun m p => by simp only [addValue, pick]; split <;> rfl),
    ← c.bound_iff (· > ·) (fun m => (m.max, m.maxT))
      (fun a => (Int64.le_iff_lt_or_eq.mp (Int64.minValue_le a)).symm.imp_left Eq.symm) rfl (fun _ _ => rfl)
      (fun m p => by simp only [addValue, pick]; split <;> rfl)]
  by_cases h : c.segments.rows.length = 1
  · obtain ⟨⟨v, t⟩, hrow⟩ := length_eq_one_iff.mp h
    have hv : c.segments.preAgg.min = v := by
      rw [c.segments.sums_preAgg.min, ← c.map_fst_rows, hrow]
      exact (extreme_singleton v).1
    have hbest (r : Int64 → Int64 → Prop) [DecidableRel r] : firstBest r [(v, t)] = some (v, t) := rfl
    rw [unmarshal_marshal_of_eq (hone.mpr h), hrow, hv]
    constructor
    · rintro ⟨m, ⟨⟩, hm⟩
      exact ⟨(hbest _).symm.trans hm.min, .inl rfl⟩
    · rintro ⟨hmin, -⟩
      exact ⟨_, rfl, (hbest _).trans hmin, (hbest _).trans hmin, by simp, rfl⟩
  · rw [unmarshal_marshal_of_ne fun heq => h (hone.mp heq)]
    constructor
    · rintro ⟨m, ⟨⟩, hm⟩
      exact ⟨hm.min, .inr hm.max⟩
    · rintro ⟨hmin, hmax⟩
      refine ⟨_, rfl, hmin, hmax.resolve_left h, c.sum_rows, ?_⟩
      rw [hcount, Int64.toInt_ofNat_of_lt c.fits]

/-- One value, the greatest there is: its time is lost. -/
theorem greatest_missed : ∃ c : IntColumn, c.segments.rows = [(Int64.maxValue, 7)] ∧
    unmarshal c.segments.preAgg.marshal = some ⟨Int64.maxValue, Int64.maxValue, 0, 0, Int64.maxValue, 1⟩ :=
  ⟨⟨[⟨[7], [some Int64.maxValue], rfl⟩], by decide, by decide⟩, by decide, by decide +kernel⟩

end IntColumn

/-! ### Booleans -/

/-- Where a value stands: the time of its row, the time that is taken for it, and whether no null is before it in its
segment. -/
structure Place where
  time : Int64
  taken : Int64
  clear : Bool

/-- The values of a segment with their places; `left` are the times that are not taken yet. -/
def places : Bool → List (Option Bool) → List Int64 → List Int64 → List (Bool × Place)
  | _, none :: col, _ :: times, left => places false col times left
  | clear, some v :: col, t :: times, t' :: left => (v, ⟨t, t', clear⟩) :: places clear col times left
  | _, _, _, _ => []

/-- Behind a null the times that are left begin with earlier ones. -/
theorem places_spec {col : List (Option Bool)} {times early : List Int64} {clear : Bool}
    (hlen : col.length = times.length)
    (hclear : clear = true ↔ early = []) (hasc : (early ++ times).Pairwise (· < ·)) :
    let l := places clear col times (early ++ times)
    l.map (Prod.map id Place.time) = valueRows col times ∧
      l.map (Prod.map int8OfBool Place.taken) = (col.reduceOption.map int8OfBool).zip (early ++ times) ∧
      ∀ p ∈ l, p.2.time = p.2.taken ↔ p.2.clear = true := by
  induction col generalizing times early clear with
  | nil => simp [places, valueRows]
  | cons v col ih =>
    cases times with
    | nil => cases hlen
    | cons t times =>
      cases v with
      | none =>
        have h := @ih times (early ++ [t]) false (Nat.succ.inj hlen) (by simp) (by simpa using hasc)
        simpa [places, valueRows] using h
      | some v =>
        cases early with
        | nil =>
          have h := @ih times [] clear (Nat.succ.inj hlen) hclear hasc.of_cons
          simp_all [places, valueRows]
        | cons u early =>
          have h := @ih times (early ++ [t]) clear (Nat.succ.inj hlen) (by simpa using hclear)
            (by simpa using hasc.of_cons)
          have hne : u ≠ t := Int64.ne_of_lt ((pairwise_cons.mp hasc).1 t (by simp))
          simp_all [places, valueRows, hne.symm]

def BoolChunk.rows (c : BoolChunk) : List (Bool × Int64) := c.flatMap fun s => valueRows s.col s.times

def BoolChunk.places (c : BoolChunk) : List (Bool × Place) :=
  c.flatMap fun s => Immutable.places true s.col s.times s.times

/-- The first row with the best value has no null before it in its segment. -/
def BoolChunk.Clear (r : Bool → Bool → Prop) [DecidableRel r] (c : BoolChunk) : Prop :=
  ∀ p ∈ firstBest r c.places, p.2.clear = true

/-- The aggregates of rows. -/
structure BooleanPreAgg.Exact (rows : List (Bool × Int64)) (m : BooleanPreAgg) : Prop where
  min : firstBest (· < ·) rows = some m.min
  max : firstBest (· > ·) rows = some m.max
  count : m.counts = Int64.ofNat rows.length

/-- A column with a value. -/
structure BoolColumn where
  segments : BoolChunk
  ascending : (segments.flatMap BoolSegment.times).Pairwise (· < ·)
  hasValue : segments.rows ≠ []

namespace BoolColumn

open BooleanPreAgg

variable (c : BoolColumn)

theorem bound_iff (r : Int8 → Int8 → Prop) [DecidableRel r] [IsStrictTotalOrder Int8 r] (r' : Bool → Bool → Prop)
    [DecidableRel r'] [IsStrictTotalOrder Bool r'] (hr : ∀ a b, r (int8OfBool a) (int8OfBool b) ↔ r' a b)
    (entry : BooleanPreAgg → Int8 × Int64) (hstart : ∀ b, r (int8OfBool b) (entry reset).1)
    (hcount : ∀ m n, entry { m with counts := n } = entry m)
    (hadd : ∀ m p, some (entry (addValue m p.1 p.2)) = pick r (some (entry m)) p) :
    firstBest r' c.segments.rows = some (decide ((entry c.segments.preAgg).1 = 1), (entry c.segments.preAgg).2) ↔
      c.segments.Clear r' := by
  have hspec (s : BoolSegment) (hs : s ∈ c.segments) := @places_spec _ _ [] true s.aligned (iff_of_true rfl rfl)
    ((pairwise_flatMap.mp c.ascending).1 s hs)
  have hrows : c.segments.places.map (Prod.map id Place.time) = c.segments.rows := by
    rw [BoolChunk.places, map_flatMap]
    exact flatMap_congr fun s hs => (hspec s hs).1
  have htaken : c.segments.places.map (Prod.map int8OfBool Place.taken) =
      c.segments.flatMap fun s => (s.col.reduceOption.map int8OfBool).zip s.times := by
    rw [BoolChunk.places, map_flatMap]
    exact flatMap_congr fun s hs => (hspec s hs).2.1
  have hfold := entry_foldl r entry (fun m (s : BoolSegment) => m.addValues s.col s.times)
    (fun m p => addValue m p.1 p.2) (fun s => (s.col.reduceOption.map int8OfBool).zip s.times)
    (fun m s => hcount _ _) hadd c.segments reset
  have hne : c.segments.places ≠ [] := fun h => c.hasValue (by rw [← hrows, h]; rfl)
  obtain ⟨⟨b, t, t', clear⟩, hp⟩ := Option.isSome_iff_exists.mp ((firstBest_isSome r').mpr hne)
  rw [← htaken, firstBest_prodMap r hr, hp, Option.map_some, pickBest_some, pick] at hfold
  have hkept : entry c.segments.preAgg = (int8OfBool b, t') := Option.some.inj (hfold.trans (if_pos (hstart b)))
  have hb : decide (int8OfBool b = 1) = b := by cases b <;> rfl
  obtain ⟨s, hs, hmem⟩ := mem_flatMap.mp (mem_of_firstBest r' hp)
  have hrow : firstBest r' c.segments.rows = (firstBest r' c.segments.places).map (Prod.map id Place.time) := by
    rw [← hrows]
    exact firstBest_prodMap r' (fun _ _ => Iff.rfl) _ _
  rw [hkept, hb, hrow, BoolChunk.Clear, hp]
  simpa using (hspec s hs).2.2 _ hmem

/-- **Exact aggregates of booleans**: minimum and maximum are those of the first rows that hold them, if no null is
before such a row in its segment. -/
theorem exact_iff_clear :
    c.segments.preAgg.Exact c.segments.rows ↔ c.segments.Clear (· < ·) ∧ c.segments.Clear (· > ·) := by
  rw [← c.bound_iff (· < ·) (· < ·) (by decide) (fun m => (m.minV, m.minTime)) (by decide) (fun _ _ => rfl)
      (fun m p => by simp only [BooleanPreAgg.addValue, pick]; split <;> rfl),
    ← c.bound_iff (· > ·) (· > ·) (by decide) (fun m => (m.maxV, m.maxTime)) (by decide) (fun _ _ => rfl)
      (fun m p => by simp only [BooleanPreAgg.addValue, pick]; split <;> rfl)]
  refine ⟨fun h => ⟨h.min, h.max⟩, fun h => ⟨h.1, h.2, ?_⟩⟩
  have hvalues : c.segments.rows.map Prod.fst = c.segments.values := by
    rw [BoolChunk.rows, map_flatMap]
    exact flatMap_congr fun s _ => map_fst_valueRows s.aligned
  rw [c.segments.preAgg_spec.2, ← hvalues, length_map]

/-- A null before the only value: the time of the null is taken. -/
theorem null_shifts : ∃ c : BoolColumn, c.segments.rows = [(true, 2)] ∧ c.segments.preAgg.min = (true, 1) :=
  ⟨⟨[⟨[1, 2], [none, some true], rfl⟩], by decide, by decide⟩, by decide, by decide⟩

end BoolColumn

end GeminiTS.Immutable
