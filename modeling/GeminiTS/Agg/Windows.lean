import GeminiTS.Agg.Parts
import GeminiTS.Lib.Rejoin

/-!
# Windows — the rows the cursor keeps together

A part at the end of a record is kept if the next record goes on with its window, but also if the next record is empty:
the cursor then does not know the next row.
-/

namespace GeminiTS.Agg

open Lib List InRecord

/-! ### The window of a time -/

theorem window_eq {interval : ℤ} (hpos : 0 < interval) (t : ℤ) : window interval t =
      (max minTime (interval * (t / interval)), min maxTime (interval * (t / interval) + interval)) := by
  have hdt : (if t.tmod interval < 0 then t.tmod interval + interval else t.tmod interval) = t % interval := by
    have hmod : t % interval = t.tmod interval % interval := by
      conv_lhs => rw [← Int.mul_tdiv_add_tmod t interval, Int.mul_add_emod_self_left]
    have hlt := Int.tmod_lt_of_pos t hpos
    have hgt := Int.lt_tmod_of_pos t hpos
    rw [hmod]
    split_ifs with hneg
    · rw [← Int.add_emod_right, Int.emod_eq_of_lt (by omega) (by omega)]
    · rw [Int.emod_eq_of_lt (by omega) hlt]
  have hdiv := Int.mul_ediv_add_emod t interval
  simp only [window]
  ext
  · split_ifs <;> omega
  · split_ifs <;> omega

/-- **A window holds the times with the same quotient**, if they are ordinary times. -/
theorem mem_window {interval : ℤ} (hpos : 0 < interval) {t t' : ℤ} (hmin : minTime ≤ t') (hmax : t' < maxTime) :
    ((window interval t).1 ≤ t' ∧ t' < (window interval t).2) ↔ t' / interval = t / interval := by
  rw [window_eq hpos]
  have hlow : interval * (t / interval) ≤ t' ↔ t / interval ≤ t' / interval := by
    rw [Int.le_ediv_iff_mul_le hpos, Int.mul_comm]
  have hhigh : t' < interval * (t / interval) + interval ↔ t' / interval < t / interval + 1 := by
    rw [Int.ediv_lt_iff_lt_mul hpos, Int.add_mul, Int.one_mul, Int.mul_comm]
  omega

/-! ### Rows with their place -/

/-- A row with its record, and whether an empty record follows it at once. -/
structure Cell where
  record : InRecord
  row : Row
  beforeEmpty : Bool

namespace Cell

variable (interval : ℤ)

/-- The number of the window. -/
def win (c : Cell) : ℤ := c.row.1 / interval

/-- The time a call gives to the part of the record that holds the row. -/
def stamp (call : Call) (c : Cell) : ℤ :=
  partStamp call c.record (c.record.rows.filter fun y => y.1 / interval < c.win interval)

end Cell

open Cell

/-- The values of rows, with their times. -/
def vals (cs : List Cell) : List (Int64 × ℤ) := valued (cs.map Cell.row)

/-- The rows of a record. -/
def cellsOf (r : InRecord) (emptyNext : Bool) : List Cell :=
  r.rows.dropLast.map (⟨r, ·, false⟩) ++ (r.rows.getLast?.map (⟨r, ·, emptyNext⟩)).toList

/-- An empty record comes next. -/
def emptyNext (rest : List InRecord) : Bool := rest.head?.any fun r => r.rows.isEmpty

def cells : List InRecord → List Cell
  | [] => []
  | r :: rest => cellsOf r (emptyNext rest) ++ cells rest

/-- Neighbours that the cursor keeps together: in one window, or with an empty record in between. -/
def together (interval : ℤ) (x y : Cell) : Bool := x.beforeEmpty || x.win interval == y.win interval

/-- A row and what comes next are kept together. -/
def goesOn (interval : ℤ) (x : Cell) (next : Option Cell) : Bool :=
  x.beforeEmpty || next.any fun y => x.win interval == y.win interval

/-- The rows that end up in one row of the output. -/
def runs (interval : ℤ) (records : List InRecord) : List (List Cell) := (cells records).splitBy (together interval)

section Cells

variable {r : InRecord} {e : Bool} {a b : List Cell}

theorem vals_append (a b : List Cell) : vals (a ++ b) = vals a ++ vals b := by
  rw [vals, map_append, valued_append]
  rfl

theorem cellsOf_concat {rows : List Row} {p : Row} (hr : r.rows = rows ++ [p]) :
    cellsOf r e = rows.map (⟨r, ·, false⟩) ++ [⟨r, p, e⟩] := by
  simp [cellsOf, hr]

theorem map_row_cellsOf : (cellsOf r e).map row = r.rows := by
  rcases eq_nil_or_concat r.rows with h | ⟨rows, p, h⟩
  · simp [cellsOf, h]
  · rw [concat_eq_append] at h
    rw [cellsOf_concat h, h]
    simp [Function.comp_def]

theorem cellsOf_eq_nil : cellsOf r e = [] ↔ r.rows = [] := by
  rw [← map_eq_nil_iff, map_row_cellsOf]

theorem record_of_mem_cellsOf {c : Cell} (hc : c ∈ cellsOf r e) : c.record = r := by
  simp only [cellsOf, mem_append, mem_map, Option.mem_toList, Option.map_eq_some_iff] at hc
  rcases hc with ⟨_, -, rfl⟩ | ⟨_, -, rfl⟩ <;> rfl

theorem beforeEmpty_of_mem_dropLast {c : Cell} (hc : c ∈ (cellsOf r e).dropLast) : c.beforeEmpty = false := by
  rcases eq_nil_or_concat r.rows with h | ⟨rows, p, h⟩
  · simp [cellsOf_eq_nil.mpr h] at hc
  · rw [concat_eq_append] at h
    rw [cellsOf_concat h, dropLast_concat, mem_map] at hc
    obtain ⟨_, -, rfl⟩ := hc
    rfl

theorem beforeEmpty_of_getLast {c : Cell} (hc : (cellsOf r e).getLast? = some c) : c.beforeEmpty = e := by
  rcases eq_nil_or_concat r.rows with h | ⟨rows, p, h⟩
  · simp [cellsOf_eq_nil.mpr h] at hc
  · rw [concat_eq_append] at h
    rw [cellsOf_concat h, getLast?_concat] at hc
    cases hc
    rfl

theorem map_row_cells (records : List InRecord) : (cells records).map row = records.flatMap rows := by
  induction records with
  | nil => rfl
  | cons r rest ih => rw [cells, map_append, map_row_cellsOf, ih, flatMap_cons]

end Cells

/-! ### The result of a run -/

section Result

variable (call : Call) (interval : ℤ)

/-- The time of a count or a sum: that of the part with the first value. -/
def stampOf (cs : List Cell) : ℤ := ((cs.find? fun c => c.row.2.isSome).map (Cell.stamp interval call)).getD 0

def result (cs : List Cell) : Option (ℤ × Int64) := answer call (stampOf call interval cs) (vals cs)

theorem find_eq_none_iff {cs : List Cell} : (cs.find? fun c => c.row.2.isSome) = none ↔ vals cs = [] := by
  rw [vals, valued]
  simp

theorem stampOf_append (a b : List Cell) :
    stampOf call interval (a ++ b) = if vals a = [] then stampOf call interval b else stampOf call interval a := by
  rw [stampOf, find?_append]
  split_ifs with h
  · rw [find_eq_none_iff.mpr h]
    rfl
  · obtain ⟨c, hc⟩ := Option.ne_none_iff_exists'.mp (mt find_eq_none_iff.mp h)
    rw [stampOf, hc, Option.some_or]

theorem result_append (a b : List Cell) :
    result call interval (a ++ b) = (result call interval a).merge call.merge (result call interval b) := by
  rw [result, vals_append, stampOf_append, answer_append]
  rfl

@[simp] theorem result_nil : result call interval [] = none := answer_nil

end Result

/-! ### Where a record is cut -/

/-- The numbers of the first rows of groups. -/
def offsets {α : Type*} : ℕ → List (List α) → List ℕ
  | _, [] => []
  | n, g :: gs => n :: offsets (n + g.length) gs

/-- Rows in groups by their window. -/
structure Grouped (interval : ℤ) (gs : List (List Cell)) : Prop where
  nonempty : ∀ g ∈ gs, g ≠ []
  same : ∀ g ∈ gs, ∀ x ∈ g, ∀ y ∈ g, x.win interval = y.win interval
  separated : gs.Pairwise fun a b => ∀ x ∈ a, ∀ y ∈ b, x.win interval < y.win interval

section Cut

variable {interval : ℤ} (hpos : 0 < interval)

theorem Grouped.tail {g : List Cell} {gs : List (List Cell)} (h : Grouped interval (g :: gs)) : Grouped interval gs :=
  ⟨fun x hx => h.nonempty x (mem_cons_of_mem _ hx), fun x hx => h.same x (mem_cons_of_mem _ hx), h.separated.tail⟩

theorem grouped_splitBy {cs : List Cell} (hs : cs.Pairwise fun x y => x.win interval ≤ y.win interval) :
    Grouped interval (cs.splitBy fun x y => x.win interval == y.win interval) where
  nonempty _ hg := ne_nil_of_mem_splitBy hg
  same g hg x hx y hy := by
    have hchain : g.IsChain fun x y => x.win interval = y.win interval :=
      (isChain_of_mem_splitBy hg).imp fun _ _ h => by simpa using h
    have hpairs : g.Pairwise fun x y => x.win interval = y.win interval := isChain_iff_pairwise.mp hchain
    exact List.Pairwise.forall_of_forall (R := fun x y : Cell => x.win interval = y.win interval) (fun _ _ => rfl)
      hpairs hx hy
  separated := splitBy_separated hs fun x y h => by simpa using h

theorem intervalIndexFrom_append {i : ℕ} (hi : 0 < i) {w : ℤ × ℤ} {ts : List ℤ} (us : List ℤ)
    (hts : ∀ t ∈ ts, w.1 ≤ t ∧ t < w.2) :
    intervalIndexFrom interval i w (ts ++ us) = intervalIndexFrom interval (i + ts.length) w us := by
  induction ts generalizing i with
  | nil => rfl
  | cons t ts ih =>
    have ht := hts t (by simp)
    rw [cons_append, intervalIndexFrom, if_neg (by omega),
      ih (Nat.succ_pos i) fun t ht => hts t (mem_cons_of_mem _ ht), length_cons]
    congr 1
    omega

include hpos in
/-- A record of ordinary times is cut where the window changes, if the numbers fit. -/
theorem intervalIndexFrom_eq {gs : List (List Cell)} (hgs : Grouped interval gs)
    (htimes : ∀ c ∈ gs.flatten, minTime ≤ c.row.1 ∧ c.row.1 < maxTime) (i : ℕ) (w : ℤ × ℤ)
    (hfirst : i = 0 ∨ ∀ g ∈ gs.head?, ∀ c ∈ g, ¬ (w.1 ≤ c.row.1 ∧ c.row.1 < w.2))
    (hsmall : ∀ n ∈ offsets i gs, n < 65536) :
    intervalIndexFrom interval i w (gs.flatten.map fun c => c.row.1) = offsets i gs := by
  induction gs generalizing i w with
  | nil => rfl
  | cons g gs ih =>
    obtain ⟨c, g, rfl⟩ := exists_cons_of_ne_nil (hgs.nonempty g (by simp))
    have hnew : i = 0 ∨ c.row.1 ≥ w.2 ∨ c.row.1 < w.1 := by
      have := hfirst.imp_right fun h => h (c :: g) rfl c (by simp)
      omega
    have hin : ∀ t ∈ g.map fun c => c.row.1, (window interval c.row.1).1 ≤ t ∧ t < (window interval c.row.1).2 := by
      intro t ht
      obtain ⟨d, hd, rfl⟩ := mem_map.mp ht
      have hbounds := htimes d (by simp [hd])
      exact (mem_window hpos hbounds.1 hbounds.2).mpr (hgs.same (c :: g) mem_cons_self d
        (mem_cons_of_mem _ hd) c mem_cons_self)
    have hshift : i + 1 + (g.map fun c => c.row.1).length = i + (c :: g).length := by
      rw [length_map, length_cons]
      omega
    rw [flatten_cons, cons_append, map_cons, intervalIndexFrom, if_pos hnew,
      map_append, intervalIndexFrom_append (Nat.succ_pos i) _ hin, hshift, offsets,
      Nat.mod_eq_of_lt (hsmall i mem_cons_self), ih hgs.tail]
    · exact fun d hd => htimes d (mem_append_right _ hd)
    · refine .inr fun g' hg' d hd => ?_
      have hmem := mem_of_mem_head? hg'
      have hbounds := htimes d (mem_flatten.mpr ⟨g', mem_cons_of_mem _ hmem, hd⟩)
      rw [mem_window hpos hbounds.1 hbounds.2]
      exact (rel_of_pairwise_cons hgs.separated hmem c (by simp) d hd).ne'
    · exact fun n hn => hsmall n (mem_cons_of_mem _ hn)

end Cut

/-! ### A record goes through the reducer -/

/-- The rows with a value. -/
def delivered (out : List Row) : List (ℤ × Int64) := out.filterMap fun p => p.2.map (p.1, ·)

@[simp] theorem delivered_append (a b : List Row) : delivered (a ++ b) = delivered a ++ delivered b :=
  filterMap_append ..

section Record

variable (call : Call) {r : InRecord} (sameWindow : Bool) {isFirst : Bool} (isLast : Bool)
  {before part after : List Row} {s : Reducer}

/-- **A turn of the loop**: the part is merged into the buffer, which is kept or given out. -/
theorem aggregatePart_spec (hr : r.rows = before ++ (part ++ after)) (hpart : part ≠ [])
    (hbuf : isFirst = true ∨ s.prevBuf = none) :
    ∃ s', aggregatePart call r sameWindow isFirst isLast before.length (before.length + part.length) s = some s' ∧
      (if isLast && sameWindow then
        s'.prevBuf = s.prevBuf.merge call.merge (answer call (partStamp call r before) (valued part)) ∧
          delivered s'.out = delivered s.out
      else
        s'.prevBuf = none ∧ delivered s'.out = delivered s.out ++
          (s.prevBuf.merge call.merge (answer call (partStamp call r before) (valued part))).toList) := by
  obtain ⟨x, hx, hres⟩ := reduce_part call hr hpart
  obtain ⟨index, value, isNil⟩ := x
  obtain ⟨prevBuf, out⟩ := s
  rw [aggregatePart, hx, ← hres]
  cases isNil with
  | true =>
    cases prevBuf with
    | none => cases isLast <;> cases sameWindow <;> exact ⟨_, rfl, by simp [Reduced.result, delivered]⟩
    | some prev =>
      obtain rfl : isFirst = true := hbuf.resolve_right (Option.some_ne_none _)
      cases isLast <;> cases sameWindow <;> exact ⟨_, rfl, by simp [Reduced.result, delivered]⟩
  | false =>
    -- a record with a value is not all nulls
    have hvalue : r.nilCount ≠ r.rows.length := by
      intro hall
      have hnil := valued_of_nilCount hall (fun p hp => hr ▸ by simp [hp] : part ⊆ r.rows)
      rw [hnil, answer_nil] at hres
      exact absurd hres (Option.some_ne_none _)
    cases prevBuf with
    | none =>
      cases isFirst <;> cases isLast <;> cases sameWindow <;>
        exact ⟨_, rfl, by simp [Reduced.result, delivered, hvalue]⟩
    | some prev =>
      obtain rfl : isFirst = true := hbuf.resolve_right (Option.some_ne_none _)
      cases isLast <;> cases sameWindow <;> exact ⟨_, rfl, by simp [Reduced.result, delivered, hvalue]⟩

end Record

section Parts

variable (call : Call) {interval : ℤ} {r : InRecord} {sameWindow : Bool}

theorem answer_group {done gs : List (List Cell)} {g : List Cell} (hgs : Grouped interval (done ++ g :: gs))
    (hr : r.rows = (done ++ g :: gs).flatten.map row) (hrec : ∀ c ∈ g, c.record = r) :
    answer call (partStamp call r (done.flatten.map row)) (valued (g.map row)) = result call interval g := by
  by_cases hnil : vals g = []
  · rw [result, ← vals, hnil, answer_nil, answer_nil]
  obtain ⟨c, hc⟩ := Option.ne_none_iff_exists'.mp (mt find_eq_none_iff.mp hnil)
  have hmem := mem_of_find?_eq_some hc
  have hsep := pairwise_append.mp hgs.separated
  have hbefore : r.rows.filter (fun y => y.1 / interval < c.win interval) = done.flatten.map row := by
    have hlow : ∀ y ∈ done.flatten.map row, decide (y.1 / interval < c.win interval) = true := by
      intro y hy
      obtain ⟨d, hd, rfl⟩ := mem_map.mp hy
      obtain ⟨a, ha, hda⟩ := mem_flatten.mp hd
      exact decide_eq_true (hsep.2.2 a ha g mem_cons_self d hda c hmem)
    have hhigh : ∀ y ∈ (g :: gs).flatten.map row, ¬ decide (y.1 / interval < c.win interval) = true := by
      intro y hy
      obtain ⟨d, hd, rfl⟩ := mem_map.mp hy
      rw [flatten_cons, mem_append] at hd
      rw [decide_eq_true_eq, Int.not_lt]
      rcases hd with hd | hd
      · exact (hgs.same g (by simp) c hmem d hd).le
      · obtain ⟨a, ha, hda⟩ := mem_flatten.mp hd
        exact (rel_of_pairwise_cons hsep.2.1 ha c hmem d hda).le
    rw [hr, flatten_append, map_append, filter_append, filter_eq_self.mpr hlow, filter_eq_nil_iff.mpr hhigh, append_nil]
  rw [result, stampOf, hc, Option.map_some, stamp, hrec c hmem, hbefore]
  rfl

/-- **The loop over the parts of a record**: what is given out are the runs that end in it. -/
theorem aggregateParts_spec {gs done : List (List Cell)} (hgs : Grouped interval (done ++ gs))
    (hr : r.rows = (done ++ gs).flatten.map row) (hrec : ∀ c ∈ gs.flatten, c.record = r) {isFirst : Bool}
    {s : Reducer} {held more : List Cell} (hbuf : s.prevBuf = result call interval held)
    (hfirst : isFirst = true ∨ held = []) (hinner : ∀ c ∈ gs.flatten.dropLast, c.beforeEmpty = false)
    (hlast : ∀ c ∈ gs.flatten.getLast?, goesOn interval c more.head? = sameWindow) :
    ∃ s' held' ended, aggregateParts call r sameWindow isFirst (offsets done.flatten.length gs) s = some s' ∧
      s'.prevBuf = result call interval held' ∧
      delivered s'.out = delivered s.out ++ ended.filterMap (result call interval) ∧
      rejoin (goesOn interval) held (gs.flatten ++ more) = ended ++ rejoin (goesOn interval) held' more := by
  induction gs generalizing done isFirst s held with
  | nil => exact ⟨s, held, [], rfl, hbuf, (append_nil _).symm, rfl⟩
  | cons g gs ih =>
    have hrows : r.rows = done.flatten.map row ++ (g.map row ++ gs.flatten.map row) := by
      simp [hr]
    have hne := hgs.nonempty g (by simp)
    have hnone : isFirst = true ∨ s.prevBuf = none := hfirst.imp_right fun h => by rw [hbuf, h, result_nil]
    obtain ⟨s1, hs1, hspec⟩ := aggregatePart_spec call sameWindow gs.isEmpty hrows (mt map_eq_nil_iff.mp hne) hnone
    rw [answer_group call hgs hr fun c hc => hrec c (mem_append_left _ hc), hbuf, ← result_append] at hspec
    rw [length_map, length_map] at hs1
    have hchain : g.IsChain fun x y => goesOn interval x (some y) := by
      refine (pairwise_of_forall_mem_list fun x hx y hy => ?_).isChain
      simp [goesOn, hgs.same g (by simp) x hx y hy]
    have hjoin := rejoin_append hchain (getLast?_eq_some_getLast hne) held
    cases gs with
    | nil =>
      have hlen : r.rows.length = done.flatten.length + g.length := by
        rw [hrows, length_append, length_append, length_map, length_map]
        rfl
      have hturn : aggregateParts call r sameWindow isFirst (offsets done.flatten.length [g]) s = some s1 := by
        simp only [offsets, aggregateParts, hlen]
        exact (congrArg (· >>= some) hs1).trans rfl
      rw [flatten_singleton] at hlast ⊢
      rw [hjoin, hlast _ (getLast?_eq_some_getLast hne)]
      cases sameWindow with
      | true => exact ⟨s1, held ++ g, [], hturn, hspec.1, hspec.2.trans (append_nil _).symm, rfl⟩
      | false =>
        refine ⟨s1, [], [held ++ g], hturn, hspec.1.trans (result_nil ..).symm, hspec.2.trans ?_, rfl⟩
        cases h : result call interval (held ++ g) <;> simp [h]
    | cons g' gs =>
      have hne' : (g' :: gs).flatten ≠ [] := by simp [hgs.nonempty g' (by simp)]
      rw [flatten_cons, dropLast_append_of_ne_nil hne'] at hinner
      rw [flatten_cons, getLast?_append_of_ne_nil _ hne'] at hlast
      obtain ⟨s2, held', ended, hs2, hbuf2, hout2, hrest⟩ := ih
        (show Grouped interval ((done ++ [g]) ++ g' :: gs) by simpa using hgs)
        (by simpa using hr) (fun c hc => hrec c (mem_append_right _ hc))
        (hspec.1.trans (result_nil call interval).symm) (.inr rfl)
        (fun c hc => hinner c (mem_append_right _ hc)) hlast
      have hnext : (done ++ [g]).flatten.length = done.flatten.length + g.length := by simp
      rw [hnext] at hs2
      -- the next group is one of a later window
      have hcut : goesOn interval (g.getLast hne) ((g' :: gs).flatten ++ more).head? = false := by
        obtain ⟨c, g', rfl⟩ := exists_cons_of_ne_nil (hgs.nonempty g' (by simp))
        have hlt := rel_of_pairwise_cons (pairwise_append.mp hgs.separated).2.1 mem_cons_self _ (getLast_mem hne) c
          mem_cons_self
        rw [goesOn, hinner _ (mem_append_left _ (getLast_mem hne))]
        exact beq_false_of_ne hlt.ne
      refine ⟨s2, held', (held ++ g) :: ended, (congrArg (· >>= _) hs1).trans hs2, hbuf2, ?_, ?_⟩
      · rw [hout2, hspec.2]
        cases h : result call interval (held ++ g) <;> simp [h]
      · rw [flatten_cons, append_assoc, hjoin, hcut, hrest]
        rfl

end Parts

/-! ### The records -/

/-- Records of ordinary times whose windows begin at rows with a number of 16 bits. -/
structure Ordinary (interval : ℤ) (records : List InRecord) : Prop where
  ascending : (records.flatMap InRecord.times).Pairwise (· < ·)
  times : ∀ r ∈ records, ∀ p ∈ r.rows, minTime ≤ p.1 ∧ p.1 < maxTime
  late : ∀ r ∈ records, ∀ x ∈ r.rows.drop 65535, ∀ y ∈ r.rows.drop 65535, x.1 / interval = y.1 / interval

theorem exists_of_mem_offsets {α : Type*} {gs : List (List α)} {i n : ℕ} (h : n ∈ offsets i gs) :
    ∃ a g b, gs = a ++ g :: b ∧ n = i + a.flatten.length := by
  induction gs generalizing i with
  | nil => exact absurd h not_mem_nil
  | cons g gs ih =>
    rcases mem_cons.mp h with rfl | h
    · exact ⟨[], g, gs, rfl, rfl⟩
    · obtain ⟨a, g', b, rfl, rfl⟩ := ih h
      exact ⟨g :: a, g', b, rfl, by simp [Nat.add_assoc]⟩

namespace Ordinary

variable {interval : ℤ} {r : InRecord} {rest records : List InRecord} {e : Bool}

theorem tail (h : Ordinary interval (r :: rest)) : Ordinary interval rest where
  ascending := by
    have := h.ascending
    rw [flatMap_cons, pairwise_append] at this
    exact this.2.1
  times r hr := h.times r (mem_cons_of_mem _ hr)
  late r hr := h.late r (mem_cons_of_mem _ hr)

theorem cells_sorted (hpos : 0 < interval) (h : Ordinary interval records) :
    (cells records).Pairwise fun x y => x.win interval ≤ y.win interval := by
  have hasc := h.ascending
  have htimes : records.flatMap InRecord.times = (cells records).map fun c => c.row.1 := by
    have hmap := congrArg (map Prod.fst) (map_row_cells records)
    rw [map_map, map_flatMap] at hmap
    exact hmap.symm
  rw [htimes, pairwise_map] at hasc
  exact hasc.imp fun hlt => Int.ediv_le_ediv hpos hlt.le

theorem cellsOf_sorted (hpos : 0 < interval) (h : Ordinary interval (r :: rest)) :
    (cellsOf r (emptyNext rest)).Pairwise fun x y => x.win interval ≤ y.win interval :=
  (pairwise_append.mp (h.cells_sorted hpos)).1

theorem offsets_lt {gs : List (List Cell)} (hgs : Grouped interval gs) (h : Ordinary interval (r :: rest))
    (hr : gs.flatten.map row = r.rows) {n : ℕ} (hn : n ∈ offsets 0 gs) : n < 65536 := by
  by_contra hlarge
  obtain ⟨a, g, b, rfl, rfl⟩ := exists_of_mem_offsets hn
  have hne : a.flatten ≠ [] := by
    intro hnil
    simp [hnil] at hlarge
  obtain ⟨init, x, hx⟩ : ∃ init x, a.flatten = init ++ [x] := by
    simpa using (eq_nil_or_concat a.flatten).resolve_left hne
  obtain ⟨y, g, rfl⟩ := exists_cons_of_ne_nil (hgs.nonempty g (by simp))
  have hrows : r.rows = init.map row ++ (x.row :: y.row :: (g ++ b.flatten).map row) := by
    rw [← hr, flatten_append, hx]
    simp
  have hlen : 65535 ≤ (init.map row).length := by
    rw [hx, length_append, length_singleton] at hlarge
    rw [length_map]
    omega
  have hlate := h.late r mem_cons_self x.row (by simp [hrows, drop_append_of_le_length hlen]) y.row
    (by simp [hrows, drop_append_of_le_length hlen])
  -- the two rows are neighbours of different windows
  obtain ⟨a', ha', hxa⟩ := mem_flatten.mp (hx ▸ mem_append_right init (mem_singleton_self x))
  have hlt := (pairwise_append.mp hgs.separated).2.2 a' ha' (y :: g) (by simp) x hxa y (by simp)
  exact absurd hlate hlt.ne

theorem time_last {c : Cell} (hc : (cellsOf r e).getLast? = some c) : r.time (r.rows.length - 1) = c.row.1 := by
  have hlast : r.times.getLast? = some c.row.1 := by
    rw [InRecord.times, ← map_row_cellsOf, getLast?_map, getLast?_map, hc]
    rfl
  rw [InRecord.time, ← length_map, ← InRecord.times, ← getLast?_eq_getElem?, hlast]
  rfl

/-- Whether the cursor expects more of a window is whether it keeps the rows together. -/
theorem goesOn_last (hpos : 0 < interval) (h : Ordinary interval (r :: rest)) {x : Cell}
    (hx : (cellsOf r (emptyNext rest)).getLast? = some x) :
    goesOn interval x (cells rest).head? = inNextWindow interval r rest := by
  have hxe := beforeEmpty_of_getLast hx
  cases rest with
  | nil => simp [goesOn, hxe, emptyNext, cells, inNextWindow]
  | cons r' rest =>
    rw [goesOn, hxe]
    cases hrows : r'.rows with
    | nil => simp [emptyNext, inNextWindow, InRecord.times, hrows]
    | cons p rows =>
      have hmap := congrArg head? (map_row_cells (r' :: rest))
      rw [head?_map, flatMap_cons, hrows] at hmap
      obtain ⟨y, hy, rfl⟩ := Option.map_eq_some_iff.mp hmap
      have hxr : x.row ∈ r.rows := map_row_cellsOf ▸ mem_map_of_mem (mem_of_getLast? hx)
      have hbounds := h.times r mem_cons_self x.row hxr
      have hwin := mem_window hpos hbounds.1 hbounds.2 (t := y.row.1)
      simp only [emptyNext, head?_cons, Option.any_some, hrows, isEmpty_cons, Bool.false_or, inNextWindow,
        InRecord.times, map_cons, time_last hx, hy]
      rw [← Bool.decide_and, Bool.eq_iff_iff, decide_eq_true_iff, hwin, beq_iff_eq, win, win]

/-- **A record through the reducer.** -/
theorem aggregate_spec (hpos : 0 < interval) (h : Ordinary interval (r :: rest)) (call : Call) {s : Reducer}
    {held : List Cell} (hbuf : s.prevBuf = result call interval held) :
    ∃ s' held' ended, aggregate call r (inNextWindow interval r rest) interval s = some s' ∧
      s'.prevBuf = result call interval held' ∧
      delivered s'.out = delivered s.out ++ ended.filterMap (result call interval) ∧
      rejoin (goesOn interval) held (cells (r :: rest)) = ended ++ rejoin (goesOn interval) held' (cells rest) := by
  have hgs := grouped_splitBy (h.cellsOf_sorted hpos)
  have hflat := flatten_splitBy (fun x y : Cell => x.win interval == y.win interval) (cellsOf r (emptyNext rest))
  generalize (cellsOf r (emptyNext rest)).splitBy (fun x y => x.win interval == y.win interval) = gs at hgs hflat
  have hrows : gs.flatten.map row = r.rows := by rw [hflat, map_row_cellsOf]
  have hindex : r.getIntervalIndex interval = offsets 0 gs := by
    rw [InRecord.getIntervalIndex, InRecord.times, ← hrows, map_map]
    refine intervalIndexFrom_eq hpos hgs (fun c hc => ?_) 0 (0, 0) (.inl rfl) fun n hn => h.offsets_lt hgs hrows hn
    exact h.times r mem_cons_self c.row (hrows ▸ mem_map_of_mem hc)
  rw [aggregate, hindex, cells, ← hflat]
  exact aggregateParts_spec call (show Grouped interval ([] ++ gs) from hgs) hrows.symm
    (fun c hc => record_of_mem_cellsOf (hflat ▸ hc)) hbuf (.inl rfl)
    (fun c hc => beforeEmpty_of_mem_dropLast (hflat ▸ hc)) fun c hc => h.goesOn_last hpos (hflat ▸ hc)

end Ordinary

end GeminiTS.Agg
