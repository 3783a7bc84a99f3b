import GeminiTS.Immutable.IntegerPreAgg

/-!
# BooleanPreAgg — the stored aggregates of a boolean column

As for integers, a chunk stores the minimum, the maximum and the number of the values of a boolean column
(`engine/immutable/pre_aggregation.go`), and a compaction merges them (`mergeBooleanPreAgg` of `stream_compact.go`).
Aggregates of nothing have the minimum 2 and the maximum -1, which `min` and `max` take for false.

* `BooleanMerge.booleans_faithful_iff` — when the result stands for the values; `emptyChunk_lowersMin` is one that does
  not.
-/

namespace GeminiTS.Immutable

open Lib Line List

/-! ### The code -/

structure BooleanPreAgg where
  counts : Int64
  minTime : Int64
  maxTime : Int64
  minV : Int8
  maxV : Int8
  deriving DecidableEq

/-- A value as it is stored. -/
def int8OfBool (b : Bool) : Int8 := if b then 1 else 0

namespace BooleanPreAgg

def reset : BooleanPreAgg := ⟨0, 0, 0, 2, -1⟩

def marshal (m : BooleanPreAgg) : Bytes :=
  [m.counts, m.minTime, m.maxTime].flatMap marshalInt64 ++ [m.minV.toUInt8, m.maxV.toUInt8]

def unmarshal (src : Bytes) : Option BooleanPreAgg :=
  if src.length < 26 then none
  else some ⟨int64At src 0, int64At src 1, int64At src 2, (src.getD 24 0).toInt8, (src.getD 25 0).toInt8⟩

def min (m : BooleanPreAgg) : Bool × Int64 := (m.minV = 1, m.minTime)

def max (m : BooleanPreAgg) : Bool × Int64 := (m.maxV = 1, m.maxTime)

/-- The body of the loop of `addValues`. -/
def addValue (m : BooleanPreAgg) (v : Int8) (t : Int64) : BooleanPreAgg := { m with
    minV := if v < m.minV then v else m.minV
    minTime := if v < m.minV then t else m.minTime
    maxV := if v > m.maxV then v else m.maxV
    maxTime := if v > m.maxV then t else m.maxTime }

/-- The `i`-th value goes with the `i`-th time, whatever nulls are before it. -/
def addValues (m : BooleanPreAgg) (col : List (Option Bool)) (times : List Int64) : BooleanPreAgg :=
  let values := col.reduceOption.map int8OfBool
  let agg := (values.zip times).foldl (fun m row => m.addValue row.1 row.2) m
  { agg with counts := agg.counts + Int64.ofNat values.length }

def addMin (m : BooleanPreAgg) (bv : Int8) (tm : Int64) : BooleanPreAgg :=
  if bv < m.minV then { m with minV := bv, minTime := tm }
  else if m.minV = bv then if tm < m.minTime then { m with minTime := tm } else m
  else m

/-- If the value is not greater it is the minimum, and its time, that are looked at. -/
def addMax (m : BooleanPreAgg) (bv : Int8) (tm : Int64) : BooleanPreAgg :=
  if bv > m.maxV then { m with maxV := bv, maxTime := tm }
  else if m.minV = bv then if tm < m.minTime then { m with minTime := tm } else m
  else m

/-- The body of the loop of `mergeBooleanPreAgg`. -/
def merge (m ab : BooleanPreAgg) : BooleanPreAgg :=
  let m := m.addMin (int8OfBool ab.min.1) ab.min.2
  let m := m.addMax (int8OfBool ab.max.1) ab.max.2
  { m with counts := m.counts + ab.counts }

end BooleanPreAgg

open BooleanPreAgg

/-- `mergeBooleanPreAgg` within the limit of segments: the metadata of each chunk, if it has the column. The first chunk
is read into the result. -/
def mergeBooleanPreAgg : List (Option Bytes) → Option Bytes
  | [] => some reset.marshal
  | first :: later => do
    let agg ← first.elim (some reset) unmarshal
    let agg ← later.foldlM (fun agg src => src.elim (some agg) fun src => (unmarshal src).map agg.merge) agg
    return agg.marshal

/-! ### Chunks -/

/-- A segment of a boolean column with its times. -/
structure BoolSegment where
  times : List Int64
  col : List (Option Bool)
  aligned : col.length = times.length

/-- The segments of the column in one chunk. -/
abbrev BoolChunk := List BoolSegment

def BoolChunk.values (c : BoolChunk) : List Bool := c.flatMap fun s => s.col.reduceOption

/-- The aggregates that are stored with a chunk. -/
def BoolChunk.preAgg (c : BoolChunk) : BooleanPreAgg := c.foldl (fun m s => m.addValues s.col s.times) reset

namespace BooleanPreAgg

/-- Minimum and maximum are those of a list of values. -/
structure Bounds (m : BooleanPreAgg) (vs : List Bool) : Prop where
  min : m.minV = extreme (· < ·) 2 (vs.map int8OfBool)
  max : m.maxV = extreme (· > ·) (-1) (vs.map int8OfBool)

/-! ### Reading and writing -/

theorem unmarshal_marshal (m : BooleanPreAgg) : unmarshal m.marshal = some m := by
  have hlen : ([m.counts, m.minTime, m.maxTime].flatMap marshalInt64).length = 24 := length_flatMap_marshalInt64 _
  have hnum {i : ℕ} {v : Int64} (hi : i < 3) (hv : [m.counts, m.minTime, m.maxTime][i]? = some v) :
      int64At m.marshal i = v := by
    rw [← int64At_flatMap hv, int64At, int64At, marshal, drop_append_of_le_length (by omega),
      take_append_of_le_length (by rw [length_drop]; omega)]
  have hlow : m.marshal.getD 24 0 = m.minV.toUInt8 := by
    rfl
  have hhigh : m.marshal.getD 25 0 = m.maxV.toUInt8 := by
    rfl
  have hall : ¬ m.marshal.length < 26 := by
    exact lt_irrefl 26
  rw [unmarshal, if_neg hall, hnum (by decide) rfl, hnum (by decide) rfl, hnum (by decide) rfl, hlow, hhigh,
    Int8.toInt8_toUInt8, Int8.toInt8_toUInt8]

/-! ### Values -/

theorem bounds_reset : reset.Bounds [] := ⟨rfl, rfl⟩

variable {m : BooleanPreAgg} {vs : List Bool}

theorem addValues_spec (h : m.Bounds vs) {col : List (Option Bool)}
    {times : List Int64} (hlen : col.length = times.length) :
    (m.addValues col times).Bounds (vs ++ col.reduceOption) ∧
      (m.addValues col times).counts = m.counts + Int64.ofNat col.reduceOption.length := by
  have hle : (col.reduceOption.map int8OfBool).length ≤ times.length := by
    rw [length_map, ← hlen]
    exact reduceOption_length_le col
  have hvalues := map_fst_zip hle
  refine ⟨⟨?_, ?_⟩, ?_⟩
  · rw [map_append, extreme_append, ← h.min, ← hvalues]
    exact proj_foldl minV (fun _ _ => rfl) _ m
  · rw [map_append, extreme_append, ← h.max, ← hvalues]
    exact proj_foldl maxV (fun _ _ => rfl) _ m
  · rw [← length_map]
    refine congrArg (· + _) ((proj_foldl counts ?_ _ m).trans (foldl_fixed _))
    exact fun _ _ => rfl

/-- What the aggregates of a chunk are taken for. -/
def takenFor (vs : List Bool) : List Bool := if vs = [] then [false] else vs

theorem int8OfBool_lt_two (b : Bool) : int8OfBool b < 2 ∧ int8OfBool b > -1 := by
  cases b <;> decide

/-- A bound as it is handed on: one of nothing is taken for false. -/
theorem int8OfBool_extreme (r : Int8 → Int8 → Prop) [DecidableRel r] [IsStrictTotalOrder Int8 r] {s : Int8}
    (hs : ∀ b, r (int8OfBool b) s) (hone : s ≠ 1) (vs : List Bool) :
    int8OfBool (extreme r s (vs.map int8OfBool) = 1) = extreme r s ((takenFor vs).map int8OfBool) := by
  by_cases hnil : vs = []
  · rw [hnil, map_nil, extreme_nil, decide_eq_false hone]
    exact (if_pos (hs false)).symm
  · have hmem : extreme r s (vs.map int8OfBool) ∈ vs.map int8OfBool := by
      refine extreme_mem _ (fun v hv => ?_) (mt map_eq_nil_iff.mp hnil)
      obtain ⟨b, -, rfl⟩ := mem_map.mp hv
      exact hs b
    obtain ⟨b, -, hb⟩ := mem_map.mp hmem
    rw [takenFor, if_neg hnil, ← hb]
    cases b <;> rfl

theorem Bounds.int8OfBool_min (h : m.Bounds vs) :
    int8OfBool m.min.1 = extreme (· < ·) 2 ((takenFor vs).map int8OfBool) := by
  rw [BooleanPreAgg.min, h.min]
  exact int8OfBool_extreme _ (fun b => (int8OfBool_lt_two b).1) (by decide) vs

theorem Bounds.int8OfBool_max (h : m.Bounds vs) :
    int8OfBool m.max.1 = extreme (· > ·) (-1) ((takenFor vs).map int8OfBool) := by
  rw [BooleanPreAgg.max, h.max]
  exact int8OfBool_extreme _ (fun b => (int8OfBool_lt_two b).2) (by decide) vs

theorem addMin_eq (m : BooleanPreAgg) (bv : Int8) (tm : Int64) :
    m.addMin bv tm = { m with minV := keep (· < ·) m.minV bv, minTime := (m.addMin bv tm).minTime } := by
  unfold addMin keep
  split_ifs <;> rfl

theorem addMax_eq (m : BooleanPreAgg) (bv : Int8) (tm : Int64) : m.addMax bv tm = { m with
    maxV := keep (· > ·) m.maxV bv, maxTime := (m.addMax bv tm).maxTime, minTime := (m.addMax bv tm).minTime } := by
  unfold addMax keep
  split_ifs <;> rfl

/-- **Merging one chunk**: without values it is taken for false. -/
theorem Bounds.merge {ab : BooleanPreAgg} {ws : List Bool} (h : m.Bounds vs) (h' : ab.Bounds ws) :
    (m.merge ab).Bounds (vs ++ takenFor ws) ∧ (m.merge ab).counts = m.counts + ab.counts := by
  rw [BooleanPreAgg.merge, addMax_eq, addMin_eq]
  refine ⟨⟨?_, ?_⟩, rfl⟩
  · have hstart : ¬ 2 < m.minV := h.min ▸ (extreme_spec (· < ·) 2 _).2.1
    rw [map_append, extreme_append, ← h.min, ← keep_extreme _ hstart, ← h'.int8OfBool_min]
  · have hstart : ¬ -1 > m.maxV := h.max ▸ (extreme_spec (· > ·) (-1) _).2.1
    rw [map_append, extreme_append, ← h.max, ← keep_extreme _ hstart, ← h'.int8OfBool_max]

end BooleanPreAgg

/-! ### The compaction -/

theorem BoolChunk.preAgg_spec (c : BoolChunk) :
    c.preAgg.Bounds c.values ∧ c.preAgg.counts = Int64.ofNat c.values.length := by
  induction c using reverseRecOn with
  | nil => exact ⟨bounds_reset, rfl⟩
  | append_singleton c s ih =>
    obtain ⟨hbounds, hadded⟩ := addValues_spec ih.1 s.aligned
    rw [BoolChunk.preAgg, foldl_concat, BoolChunk.values, flatMap_append, flatMap_singleton, length_append,
      Int64.ofNat_add]
    exact ⟨hbounds, hadded.trans (congrArg (· + _) ih.2)⟩

/-- The chunks that are compacted: the column of each one that has it. -/
structure BooleanMerge where
  chunks : List (Option BoolChunk)

namespace BooleanMerge

variable (x : BooleanMerge)

/-- The values of all chunks. -/
def values : List Bool := x.chunks.flatMap fun c => c.elim [] BoolChunk.values

/-- The metadata that the compaction writes. -/
def metadata : Option Bytes := mergeBooleanPreAgg (x.chunks.map (Option.map fun c => c.preAgg.marshal))

/-- The metadata has the number of the values and, if there are any, the smallest and the greatest one. -/
def Faithful : Prop :=
  ∃ src m, x.metadata = some src ∧ unmarshal src = some m ∧ m.counts = Int64.ofNat x.values.length ∧
    (∀ b, IsLeast {v | v ∈ x.values} b → m.minV = int8OfBool b) ∧
    ∀ b, IsGreatest {v | v ∈ x.values} b → m.maxV = int8OfBool b

/-- The values of the first chunk. -/
def first : List Bool := (x.chunks.head?.bind fun c => c).elim [] BoolChunk.values

/-- The other chunks that have the column. -/
def later : List BoolChunk := x.chunks.tail.reduceOption

/-- The values the result stands for. -/
def seen : List Bool := x.first ++ x.later.flatMap fun c => takenFor c.values

variable {x}

theorem values_eq : x.values = x.first ++ x.later.flatMap BoolChunk.values := by
  rw [values, first, later]
  cases x.chunks with
  | nil => rfl
  | cons c cs =>
    rw [flatMap_cons, flatMap_elim_nil]
    rfl

theorem foldl_merge (cs : List BoolChunk) {agg : BooleanPreAgg} {vs : List Bool} (h : agg.Bounds vs) :
    let m := cs.foldl (fun m c => m.merge c.preAgg) agg
    m.Bounds (vs ++ cs.flatMap fun c => takenFor c.values) ∧
      m.counts = agg.counts + Int64.ofNat (cs.flatMap BoolChunk.values).length := by
  induction cs generalizing agg vs with
  | nil =>
    rw [flatMap_nil, append_nil]
    exact ⟨h, (Int64.add_zero agg.counts).symm⟩
  | cons c cs ih =>
    obtain ⟨hbounds, hcounts⟩ := c.preAgg_spec
    obtain ⟨hmerged, hsum⟩ := h.merge hbounds
    obtain ⟨hbounds', hcounts'⟩ := ih hmerged
    rw [flatMap_cons, ← append_assoc, flatMap_cons, length_append, Int64.ofNat_add, ← hcounts, ← Int64.add_assoc,
      ← hsum]
    exact ⟨hbounds', hcounts'⟩

theorem exists_merged : ∃ m : BooleanPreAgg, x.metadata = some m.marshal ∧ m.Bounds x.seen ∧
    m.counts = Int64.ofNat x.values.length := by
  rw [values_eq, length_append, Int64.ofNat_add]
  unfold metadata seen first later
  cases x.chunks with
  | nil => exact ⟨reset, rfl, bounds_reset, rfl⟩
  | cons c cs =>
    obtain ⟨agg, hagg, hbounds, hcounts⟩ : ∃ agg : BooleanPreAgg,
        (c.map fun c => c.preAgg.marshal).elim (some reset) unmarshal = some agg ∧
          agg.Bounds (c.elim [] BoolChunk.values) ∧
          agg.counts = Int64.ofNat (c.elim [] BoolChunk.values).length := by
      cases c with
      | none => exact ⟨reset, rfl, bounds_reset, rfl⟩
      | some c => exact ⟨c.preAgg, unmarshal_marshal _, c.preAgg_spec⟩
    have hloop := foldlM_sources merge (fun (c : BoolChunk) (_ : some c ∈ cs) => unmarshal_marshal c.preAgg) agg
    refine ⟨_, ?_, hcounts ▸ foldl_merge cs.reduceOption hbounds⟩
    rw [map_cons, mergeBooleanPreAgg, hagg, Option.bind_eq_bind, Option.bind_some, hloop]
    rfl

theorem mem_seen {v : Bool} : v ∈ x.seen ↔ v ∈ x.values ∨ v = false ∧ ∃ c ∈ x.later, c.values = [] := by
  have htaken (vs : List Bool) : v ∈ takenFor vs ↔ v ∈ vs ∨ v = false ∧ vs = [] := by
    unfold takenFor
    split_ifs with hnil
    · rw [hnil]
      simp
    · simp [hnil]
  rw [values_eq, seen, mem_append, mem_append, mem_flatMap, mem_flatMap]
  simp only [htaken]
  constructor
  · rintro (h | ⟨c, hc, h | ⟨h, hnil⟩⟩)
    · exact .inl (.inl h)
    · exact .inl (.inr ⟨c, hc, h⟩)
    · exact .inr ⟨h, c, hc, hnil⟩
  · rintro ((h | ⟨c, hc, h⟩) | ⟨h, c, hc, hnil⟩)
    · exact .inl h
    · exact .inr ⟨c, hc, .inl h⟩
    · exact .inr ⟨c, hc, .inr ⟨h, hnil⟩⟩

theorem int8OfBool_not_lt {a b : Bool} (h : a ≤ b) : ¬ int8OfBool b < int8OfBool a := by
  cases a <;> cases b <;> first | decide | exact absurd h (by decide)

theorem extreme_seen (r : Int8 → Int8 → Prop) [DecidableRel r] [IsStrictTotalOrder Int8 r] {s : Int8} {b : Bool}
    (hb : b ∈ x.seen) (hs : ¬ r s (int8OfBool b)) (hbest : ∀ v ∈ x.seen, ¬ r (int8OfBool v) (int8OfBool b)) :
    extreme r s (x.seen.map int8OfBool) = int8OfBool b :=
  (extreme_eq_iff r).mpr ⟨.inr (mem_map_of_mem hb), hs, forall_mem_map.mpr hbest⟩

/-- **The merged aggregates are those of the values** exactly if, where a later chunk has no values, there is a false or
no value at all. -/
theorem booleans_faithful_iff (x : BooleanMerge) :
    x.Faithful ↔ ((∃ c ∈ x.later, c.values = []) → x.values = [] ∨ false ∈ x.values) := by
  obtain ⟨m, hmeta, hbounds, hcounts⟩ := x.exists_merged
  constructor
  · rintro ⟨src, m', hsrc, hm', -, hmin, -⟩ hempty
    cases hmeta.symm.trans hsrc
    cases (unmarshal_marshal m).symm.trans hm'
    by_contra hnot
    rw [not_or] at hnot
    -- all values are true, and a false was seen
    have htrue (v : Bool) (hv : v ∈ x.values) : v = true := by
      cases v with
      | true => rfl
      | false => exact absurd hv hnot.2
    obtain ⟨v, hv⟩ := exists_mem_of_ne_nil _ hnot.1
    have hleast : IsLeast {v | v ∈ x.values} true := ⟨htrue v hv ▸ hv, fun w hw => (htrue w hw).ge⟩
    have hone := hmin true hleast
    rw [hbounds.min, extreme_seen (· < ·) (mem_seen.mpr (.inr ⟨rfl, hempty⟩)) (by decide)
      fun v _ => int8OfBool_not_lt (Bool.false_le v)] at hone
    exact absurd hone (by decide)
  · intro h
    refine ⟨m.marshal, m, hmeta, unmarshal_marshal m, hcounts, fun b hb => ?_, fun b hb => ?_⟩
    · rw [hbounds.min]
      refine extreme_seen _ (mem_seen.mpr (.inl hb.1)) (by cases b <;> decide) fun v hv => int8OfBool_not_lt ?_
      rcases mem_seen.mp hv with hv | ⟨rfl, hempty⟩
      · exact hb.2 hv
      · rcases h hempty with hnil | hfalse
        · exact absurd hb.1 (by rw [hnil]; exact not_mem_nil)
        · exact hb.2 hfalse
    · rw [hbounds.max]
      refine extreme_seen _ (mem_seen.mpr (.inl hb.1)) (by cases b <;> decide) fun v hv => int8OfBool_not_lt ?_
      rcases mem_seen.mp hv with hv | ⟨rfl, -⟩
      · exact hb.2 hv
      · exact Bool.false_le b

/-! ### A minimum that is wrong -/

/-- A chunk without values behind one with a true. -/
def emptyChunk : BooleanMerge where
  chunks := [some [⟨[1], [some true], rfl⟩], some [⟨[2], [none], rfl⟩]]

/-- **The only value is true, and the minimum is false.** -/
theorem emptyChunk_lowersMin : emptyChunk.values = [true] ∧
    (emptyChunk.metadata.bind unmarshal).map (fun m => (m.minV, m.counts)) = some (0, 1) ∧ ¬ emptyChunk.Faithful := by
  have hread : (emptyChunk.metadata.bind unmarshal).map (fun m => (m.minV, m.counts)) = some (0, 1) := by decide
  refine ⟨rfl, hread, ?_⟩
  rintro ⟨src, m, hsrc, hm, -, hmin, -⟩
  have hone : m.minV = 1 := hmin true ⟨mem_cons_self, fun v hv => (mem_singleton.mp hv).ge⟩
  rw [hsrc, Option.bind_some, hm, Option.map_some, hone] at hread
  exact absurd hread (by simp)

end BooleanMerge

end GeminiTS.Immutable
