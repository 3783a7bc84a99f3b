import GeminiTS.Agg.WindowCursor

/-!
# Parts — what a call makes of a part of a record

The rows of a record are `before`, then the part, then `after`. The reduce functions go through the values of the whole
column; here they are read as functions of the rows of the part.
-/

namespace GeminiTS.Agg

open Lib List InRecord

/-! ### Answers -/

/-- A call on values with their times; a count or a sum gets the given time. -/
def answer (call : Call) (stamp : ℤ) (vs : List (Int64 × ℤ)) : Option (ℤ × Int64) :=
  match call with
  | .count => if vs = [] then none else some (stamp, Int64.ofNat vs.length)
  | .sum => if vs = [] then none else some (stamp, (vs.map Prod.fst).sum)
  | .min => (firstBest (beats true) vs).map Prod.swap
  | .max => (firstBest (beats false) vs).map Prod.swap
  | .first => vs.head?.map Prod.swap
  | .last => vs.getLast?.map Prod.swap

section Answer

variable {call : Call} {s s' : ℤ} {vs ws : List (Int64 × ℤ)} {o : ℤ × Int64}

@[simp] theorem answer_nil : answer call s [] = none := by cases call <;> rfl

theorem answer_isSome (hvs : vs ≠ []) : (answer call s vs).isSome := by
  cases call with
  | count | sum => simp [answer, hvs]
  | min => simpa [answer] using (firstBest_isSome (beats true)).mpr hvs
  | max => simpa [answer] using (firstBest_isSome (beats false)).mpr hvs
  | first => simpa [answer] using isSome_head?.mpr hvs
  | last => simpa [answer] using hvs

/-- The time of an answer is the given one, or that of one of the values. -/
theorem answer_time (h : answer call s vs = some o) :
    (∃ v, (v, o.1) ∈ vs) ∨ ((call = .count ∨ call = .sum) ∧ o.1 = s ∧ vs ≠ []) := by
  cases call with
  | count =>
    rw [answer] at h
    split_ifs at h with hvs
    cases h
    exact .inr ⟨.inl rfl, rfl, hvs⟩
  | sum =>
    rw [answer] at h
    split_ifs at h with hvs
    cases h
    exact .inr ⟨.inr rfl, rfl, hvs⟩
  | min | max =>
    obtain ⟨p, hp, rfl⟩ := Option.map_eq_some_iff.mp h
    exact .inl ⟨p.1, mem_of_firstBest _ hp⟩
  | first =>
    obtain ⟨p, hp, rfl⟩ := Option.map_eq_some_iff.mp h
    exact .inl ⟨p.1, mem_of_head? hp⟩
  | last =>
    obtain ⟨p, hp, rfl⟩ := Option.map_eq_some_iff.mp h
    exact .inl ⟨p.1, mem_of_getLast? hp⟩

theorem answer_self (h : answer call s vs = some o) : answer call o.1 vs = some o := by
  cases call with
  | count | sum =>
    rw [answer] at h ⊢
    split_ifs at h with hvs
    cases h
    exact if_neg hvs
  | min | max | first | last => exact h

theorem merge_extreme (isMin : Bool) (a b : Option (Int64 × ℤ)) : (pickBest (beats isMin) a b).map Prod.swap =
      (a.map Prod.swap).merge (if isMin then Call.min else Call.max).merge (b.map Prod.swap) := by
  cases a with
  | none => cases b <;> rfl
  | some p =>
    cases b with
    | none => rfl
    | some q =>
      cases isMin with
      | true => by_cases h : q.1 < p.1 <;> simp [pick, Call.merge, h]
      | false => by_cases h : p.1 < q.1 <;> simp [pick, Call.merge, h]

/-- **Values piece by piece**: the results are merged, and the time is that of the first piece with a value. -/
theorem answer_append (call : Call) (s s' : ℤ) (vs ws : List (Int64 × ℤ)) :
    answer call (if vs = [] then s' else s) (vs ++ ws) = (answer call s vs).merge call.merge (answer call s' ws) := by
  rcases eq_or_ne vs [] with rfl | hvs
  · simp
  rcases eq_or_ne ws [] with rfl | hws
  · simp [hvs]
  cases call with
  | count => simp [answer, hvs, hws, Call.merge]
  | sum => simp [answer, hvs, hws, Call.merge]
  | min => rw [answer, firstBest_append]; exact merge_extreme true _ _
  | max => rw [answer, firstBest_append]; exact merge_extreme false _ _
  | first =>
    obtain ⟨v, vs, rfl⟩ := exists_cons_of_ne_nil hvs
    obtain ⟨w, ws, rfl⟩ := exists_cons_of_ne_nil hws
    rfl
  | last =>
    have h := getLast?_append_of_ne_nil vs hws
    rw [answer, answer, answer, h, getLast?_eq_some_getLast hvs, getLast?_eq_some_getLast hws]
    rfl

end Answer

/-! ### The values of a record -/

theorem zip_times_col (r : InRecord) : r.times.zip r.col = r.rows := by
  rw [InRecord.times, col, zip_map']
  simp

theorem valued_append (a b : List Row) : valued (a ++ b) = valued a ++ valued b := filterMap_append ..

theorem valued_of_nilCount {r : InRecord} (h : r.nilCount = r.rows.length) {l : List Row} (hl : l ⊆ r.rows) :
    valued l = [] := by
  have hall := countP_eq_length.mp (h.trans (by simp [col]))
  refine filterMap_eq_nil_iff.mpr fun p hp => ?_
  have := hall p.2 (mem_map_of_mem (hl hp))
  rw [Option.isNone_iff_eq_none.mp this]
  rfl

section Values

variable {r : InRecord} {i start stop : ℕ}

theorem map_time_nonNil (start : ℕ) (hstop : stop ≤ r.rows.length) :
    (nonNil r.col start stop).map (fun p => (p.1, r.time p.2)) = valued (r.rows.extract start stop) := by
  have hlen : r.col.length = r.times.length := by simp [col, InRecord.times]
  have h := map_nonNil hlen start stop (by simpa [InRecord.times] using hstop)
  rwa [zip_times_col] at h

theorem nonNil_append (col : ColVal Int64) {i j k : ℕ} (hij : i ≤ j) (hjk : j ≤ k) :
    nonNil col i k = nonNil col i j ++ nonNil col j k := by
  have hrange := range'_append_1 (s := i) (m := j - i) (n := k - j)
  rw [show i + (j - i) = j by omega, show j - i + (k - j) = k - i by omega] at hrange
  rw [nonNil, ← hrange, filterMap_append]
  rfl

theorem nonNil_succ (col : ColVal Int64) (i : ℕ) : nonNil col i (i + 1) = (col[i]?.join.map (·, i)).toList := by
  rw [nonNil]
  cases h : col[i]?.join <;> simp [h]

theorem integerValues_eq (r : InRecord) : r.integerValues = (nonNil r.col 0 r.rows.length).map Prod.fst := by
  have h := congrArg (map Prod.fst) (map_time_nonNil 0 (le_refl r.rows.length))
  rw [map_map, extract_eq_take_drop, Nat.sub_zero, drop_zero, take_length] at h
  rw [show (nonNil r.col 0 r.rows.length).map Prod.fst = _ from h, integerValues, col,
    reduceOption, filterMap_map, valued, map_filterMap]
  refine filterMap_congr fun p _ => ?_
  obtain ⟨t, v⟩ := p
  cases v <;> rfl

theorem integerValues_at {v : Int64} (hv : r.col[i]?.join = some v) :
    r.integerValues[(nonNil r.col 0 i).length]? = some v := by
  have hi : i < r.rows.length := by
    by_contra hge
    rw [getElem?_eq_none (by simpa [col] using hge)] at hv
    exact absurd hv (by simp)
  rw [integerValues_eq, nonNil_append _ (Nat.zero_le i) hi.le, nonNil_append _ (Nat.le_succ i) hi, nonNil_succ, hv]
  simp

theorem nonNil_of_integerValues (h : r.integerValues = []) : nonNil r.col start stop = [] := by
  refine filterMap_eq_nil_iff.mpr fun i _ => ?_
  cases hv : r.col[i]?.join with
  | none => rfl
  | some v =>
    have := integerValues_at hv
    simp [h] at this

theorem exists_value (h : r.nilCount = 0) (hi : i < r.rows.length) : ∃ v, r.col[i]?.join = some v := by
  have hi : i < r.col.length := by simpa [col] using hi
  have hsome := countP_eq_zero.mp h r.col[i] (getElem_mem hi)
  rw [getElem?_eq_getElem hi]
  exact Option.isSome_iff_exists.mp (Option.isSome_iff_ne_none.mpr (by simpa using hsome))

theorem length_nonNil_of_nilCount (h : r.nilCount = 0) (hstop : stop ≤ r.rows.length) :
    (nonNil r.col start stop).length = stop - start := by
  rw [nonNil, filterMap_length_eq_length.mpr, length_range']
  intro i hi
  obtain ⟨v, hv⟩ := exists_value h (show i < r.rows.length by have := mem_range'_1.mp hi; omega)
  rw [hv]
  rfl

theorem getElem?_integerValues (h : r.nilCount = 0) (hi : i < r.rows.length) :
    r.integerValues[i]? = r.col[i]?.join := by
  obtain ⟨v, hv⟩ := exists_value h hi
  have hat := integerValues_at hv
  rwa [length_nonNil_of_nilCount h hi.le, ← hv] at hat

/-! ### The rows of a part -/

section

variable (hle : start ≤ stop) (hstop : stop ≤ r.rows.length)

include hle hstop

theorem validCount_eq : validCount r start stop = (nonNil r.col start stop).length := by
  rw [validCount]
  split_ifs with hall hnone
  · have hnil := congrArg length (map_time_nonNil start hstop)
    rw [length_map, valued_of_nilCount hall fun p hp => mem_of_mem_drop (mem_of_mem_take hp)] at hnil
    rw [hnil]
    rfl
  · rw [length_nonNil_of_nilCount hnone hstop]
    omega
  · rfl

theorem getValIndexRange_eq :
    getValIndexRange r start stop = some ((nonNil r.col 0 start).length, (nonNil r.col 0 stop).length) := by
  simp only [getValIndexRange]
  split_ifs with hnone
  · rw [length_nonNil_of_nilCount hnone (hle.trans hstop), length_nonNil_of_nilCount hnone hstop]
    rfl
  · rfl

theorem extract_integerValues : r.integerValues.extract (nonNil r.col 0 start).length (nonNil r.col 0 stop).length =
      (nonNil r.col start stop).map Prod.fst := by
  rw [integerValues_eq, nonNil_append _ (Nat.zero_le stop) hstop, nonNil_append _ (Nat.zero_le start) hle]
  simp

end

end Values

/-! ### The selected row -/

section Selected

variable {r : InRecord} {start stop : ℕ}

theorem foldl_extreme (h : r.nilCount = 0) (isMin : Bool) {is : List ℕ} (his : ∀ i ∈ is, i < r.rows.length)
    (best : Int64 × ℕ) : some (is.foldl (extremeStep r isMin) best) =
      (is.filterMap fun i => r.col[i]?.join.map (·, i)).foldl (pick (beats isMin)) (some best) := by
  induction is generalizing best with
  | nil => rfl
  | cons i is ih =>
    obtain ⟨v, hv⟩ := exists_value h (his i mem_cons_self)
    rw [foldl_cons, ih fun j hj => his j (mem_cons_of_mem _ hj), extremeStep,
      getElem?_integerValues h (his i mem_cons_self), filterMap_cons, hv]
    simp only [Option.map_some, foldl_cons, pick]
    split_ifs <;> rfl

/-- With nulls the values are counted along; the first one found is taken as it is. -/
theorem scanExtreme_eq (isMin : Bool) (skip n : ℕ) (best : Option (Int64 × ℕ))
    (hskip : skip ≤ (nonNil r.col 0 start).length) (hbest : (nonNil r.col 0 start).length = skip → best = none) :
    scanExtreme r isMin skip (range' start n) (nonNil r.col 0 start).length best =
      ((range' start n).filterMap fun i => r.col[i]?.join.map (·, i)).foldl (pick (beats isMin)) best := by
  induction n generalizing start best with
  | zero => rfl
  | succ n ih =>
    have hnext : (nonNil r.col 0 (start + 1)).length =
        (nonNil r.col 0 start).length + (r.col[start]?.join.map (·, start)).toList.length := by
      rw [nonNil_append _ (Nat.zero_le start) (Nat.le_succ start), nonNil_succ, length_append]
    rw [range'_succ, scanExtreme, filterMap_cons]
    cases hv : r.col[start]?.join with
    | none =>
      have hisNil : r.col.isNil start = true := by rw [ColVal.isNil, hv]; rfl
      rw [hv] at hnext
      have ih := ih best (hskip.trans_eq hnext.symm) (hnext ▸ hbest)
      rw [hnext] at ih
      cases hi : r.integerValues[(nonNil r.col 0 start).length]? with
      | none =>
        -- no values are left, so none is found in the rows to come
        have hnil : ((range' (start + 1) n).filterMap fun i => r.col[i]?.join.map (·, i)) = [] := by
          refine filterMap_eq_nil_iff.mpr fun j hj => ?_
          cases hw : r.col[j]?.join with
          | none => rfl
          | some w =>
            have hlt := (List.getElem?_eq_some_iff.mp (integerValues_at hw)).1
            have hge := getElem?_eq_none_iff.mp hi
            rw [nonNil_append _ (Nat.zero_le start) (by have := mem_range'_1.mp hj; omega), length_append] at hlt
            omega
        simp only [hnil]
        rfl
      | some v => exact (if_pos hisNil).trans ih
    | some v =>
      have hisNil : ¬ r.col.isNil start = true := by rw [ColVal.isNil, hv]; exact Bool.false_ne_true
      rw [hv, Option.map_some, Option.toList_some, length_singleton] at hnext
      have ih := @ih (start + 1) (pick (beats isMin) best (v, start)) (by omega) (fun h => by omega)
      rw [hnext] at ih
      rw [integerValues_at hv]
      simp only [Option.map_some, foldl_cons]
      split_ifs with hfirst
      · rw [← ih, hbest hfirst]
        rfl
      · exact ih

variable (hlt : start < stop) (hstop : stop ≤ r.rows.length)

include hlt hstop

theorem extremeValue_eq (isMin : Bool) :
    extremeValue r start stop isMin = firstBest (beats isMin) (nonNil r.col start stop) := by
  rw [extremeValue]
  split_ifs with hnil hnone
  · rw [nonNil_of_integerValues hnil]
    rfl
  · obtain ⟨v, hv⟩ := exists_value hnone (hlt.trans_le hstop)
    obtain ⟨n, rfl⟩ := Nat.exists_eq_add_of_lt hlt
    rw [getElem?_integerValues hnone (hlt.trans_le hstop), hv, Option.map_some,
      foldl_extreme hnone isMin fun i hi => by have := mem_range'_1.mp hi; omega, firstBest, nonNil, Nat.add_assoc,
      Nat.add_sub_cancel_left, range'_succ, filterMap_cons, hv]
    simp only [Option.map_some, foldl_cons]
    congr 1
    -- the first value is compared with itself
    exact if_neg (irrefl_of (beats isMin) v)
  · exact scanExtreme_eq isMin _ _ none (le_refl _) fun _ => rfl

theorem firstValue_eq : firstValue r start stop = (nonNil r.col start stop).head? := by
  have hhead : ∀ v, r.col[start]?.join = some v → (nonNil r.col start stop).head? = some (v, start) := by
    intro v hv
    rw [nonNil_append _ (Nat.le_succ start) hlt, nonNil_succ, hv]
    rfl
  rw [firstValue]
  split_ifs with hnil hnone
  · rw [nonNil_of_integerValues hnil]
    rfl
  · obtain ⟨v, hv⟩ := exists_value hnone (hlt.trans_le hstop)
    rw [getElem?_integerValues hnone (hlt.trans_le hstop), hv, hhead v hv]
    rfl
  · clear hhead hlt
    show _ = ((range' start (stop - start)).filterMap fun i => r.col[i]?.join.map (·, i)).head?
    generalize stop - start = n
    induction n generalizing start with
    | zero => rfl
    | succ n ih =>
      rw [range'_succ, filterMap_cons]
      cases hv : r.col[start]?.join with
      | none =>
        have hsame : nonNil r.col 0 (start + 1) = nonNil r.col 0 start := by
          rw [nonNil_append _ (Nat.zero_le start) (Nat.le_succ start), nonNil_succ, hv]
          exact append_nil _
        rw [find?_cons_of_neg (by simp [ColVal.isNil, hv]), ← hsame]
        exact ih
      | some v =>
        rw [find?_cons_of_pos (by simp [ColVal.isNil, hv])]
        simp only [integerValues_at hv]
        rfl

theorem lastValue_eq : lastValue r start stop = some (nonNil r.col start stop).getLast? := by
  rw [lastValue]
  split_ifs with hnil hnone hzero
  · rw [nonNil_of_integerValues hnil]
    rfl
  · omega
  · obtain ⟨v, hv⟩ := exists_value hnone (show stop - 1 < r.rows.length by omega)
    have hlast := nonNil_succ r.col (stop - 1)
    rw [Nat.sub_add_cancel (by omega), hv] at hlast
    rw [getElem?_integerValues hnone (by omega), hv, nonNil_append _ (Nat.le_sub_one_of_lt hlt) (Nat.sub_le stop 1),
      hlast]
    exact congrArg some (getLast?_concat ..).symm
  · rw [nonNil, ← head?_reverse, ← filterMap_reverse]
    induction (range' start (stop - start)).reverse with
    | nil => rfl
    | cons i is ih =>
      rw [filterMap_cons]
      cases hv : r.col[i]?.join with
      | none =>
        rw [find?_cons_of_neg (by simp [ColVal.isNil, hv])]
        exact ih
      | some v =>
        rw [find?_cons_of_pos (by simp [ColVal.isNil, hv])]
        simp only [integerValues_at hv]
        rfl

end Selected

/-! ### The reduce functions -/

/-- What the reducer makes of a result: a time and a value. -/
def Reduced.result (r : InRecord) (x : Reduced) : Option (ℤ × Int64) :=
  if x.isNil then none else some (r.time x.index, x.value)

theorem result_ofRow (r : InRecord) (row : Option (Int64 × ℕ)) :
    (Reduced.ofRow row).result r = (row.map fun p => (p.1, r.time p.2)).map Prod.swap := by
  cases row <;> rfl

/-- The time a call gives a part that begins after the rows `before`. -/
def partStamp (call : Call) (r : InRecord) (before : List Row) : ℤ :=
  r.time (if call = .sum then (valued before).length else before.length)

/-- **One part of a record.** -/
theorem reduce_part (call : Call) {r : InRecord} {before part after : List Row}
    (hr : r.rows = before ++ (part ++ after)) (hpart : part ≠ []) :
    ∃ x, call.reduce r before.length (before.length + part.length) = some x ∧
      x.result r = answer call (partStamp call r before) (valued part) := by
  have hlt : before.length < before.length + part.length := Nat.lt_add_of_pos_right (length_pos_iff.mpr hpart)
  have hstop : before.length + part.length ≤ r.rows.length := by simp [hr]
  have hvals := map_time_nonNil before.length hstop
  rw [show r.rows.extract before.length (before.length + part.length) = part by simp [hr]] at hvals
  rw [← hvals]
  cases call with
  | count =>
    refine ⟨_, rfl, ?_⟩
    rw [validCount_eq hlt.le hstop, Int64.ofInt_eq_ofNat, Reduced.result, answer]
    by_cases hv : nonNil r.col before.length (before.length + part.length) = []
    · simp [hv]
    · simp [partStamp]
  | sum =>
    have hne : r.rows ≠ [] := by simp [hr, hpart]
    have hbefore := congrArg length (map_time_nonNil 0 (hlt.le.trans hstop))
    rw [show r.rows.extract 0 before.length = before by simp [hr], length_map] at hbefore
    refine ⟨_, by rw [Call.reduce, if_neg hne, getValIndexRange_eq hlt.le hstop]; rfl, ?_⟩
    dsimp only
    rw [extract_integerValues hlt.le hstop, Reduced.result, answer, ← sum_eq_foldl]
    by_cases hv : nonNil r.col before.length (before.length + part.length) = []
    · simp [hv]
    · simp [partStamp, hbefore, Function.comp_def]
  | min | max =>
    refine ⟨_, rfl, ?_⟩
    rw [extremeValue_eq hlt hstop, result_ofRow, answer, firstBest_map]
    rfl
  | first =>
    refine ⟨_, rfl, ?_⟩
    rw [firstValue_eq hlt hstop, result_ofRow, answer, head?_map]
  | last =>
    refine ⟨_, by rw [Call.reduce, lastValue_eq hlt hstop]; rfl, ?_⟩
    rw [result_ofRow, answer, getLast?_map]

end GeminiTS.Agg
