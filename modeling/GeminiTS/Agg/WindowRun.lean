import GeminiTS.Agg.Windows

/-!
# WindowRun — what the cursor delivers
-/

namespace GeminiTS.Agg

open Lib List

/-! ### The calls of the cursor -/

section Calls

variable {call : Call} {interval : ℤ} {maxRecordSize : ℕ}

/-- What is left after a call of `Next`. -/
structure Called (call : Call) (interval : ℤ) (records : List InRecord) (s : Reducer) (held : List Cell)
    (o : Option (List Row)) (rest : List InRecord) (buf : Option (ℤ × Int64)) (held' : List Cell)
    (ended : List (List Cell)) : Prop where
  runs : rejoin (goesOn interval) held (cells records) = ended ++ rejoin (goesOn interval) held' (cells rest)
  suffix : rest <:+ records
  ordinary : Ordinary interval rest
  buf : buf = result call interval held'
  out : delivered (o.getD []) = delivered s.out ++ ended.filterMap (result call interval)
  ended : o = none → rest = []
  progress : s.out = [] → o ≠ none → rest.length < records.length

variable {m n : ℕ} {records : List InRecord} {out : List Row}

theorem next_spec (hpos : 0 < interval) (hmax : 0 < maxRecordSize) (h : Ordinary interval records) {s : Reducer}
    {held : List Cell} (hbuf : s.prevBuf = result call interval held) :
    ∃ o rest buf held' ended, next call interval maxRecordSize records s = some (o, rest, buf) ∧
      Called call interval records s held o rest buf held' ended := by
  induction records generalizing s held with
  | nil =>
    refine ⟨_, [], s.prevBuf, held, [], rfl, rfl, suffix_refl _, h, hbuf, ?_, fun _ => rfl, ?_⟩
    · split_ifs with hout
      · simp
      · simp [length_eq_zero_iff.mp (Nat.eq_zero_of_not_pos hout), delivered]
    · intro hout hsome
      simp [hout] at hsome
  | cons r rest ih =>
    by_cases hempty : r.rows.length = 0
    · -- an empty record has no rows to keep
      have hnil : cellsOf r (emptyNext rest) = [] := cellsOf_eq_nil.mpr (length_eq_zero_iff.mp hempty)
      obtain ⟨o, rest', buf, held', ended, hnext, hcalled⟩ := ih h.tail hbuf
      refine ⟨o, rest', buf, held', ended, by rw [next, if_pos hempty, hnext], ?_, ?_, hcalled.ordinary, hcalled.buf,
        hcalled.out, hcalled.ended, fun hout ho => ?_⟩
      · rw [cells, hnil]
        exact hcalled.runs
      · exact hcalled.suffix.trans (suffix_cons ..)
      · exact Nat.lt_succ_of_lt (hcalled.progress hout ho)
    by_cases hfull : s.out.length ≥ maxRecordSize
    · refine ⟨some s.out, r :: rest, s.prevBuf, held, [], by rw [next, if_neg hempty, if_pos hfull], rfl,
        suffix_refl _, h, hbuf, by simp, fun ho => absurd ho (Option.some_ne_none _), fun hout => ?_⟩
      rw [hout, length_nil] at hfull
      omega
    · obtain ⟨s1, held1, ended1, hs1, hbuf1, hout1, hruns1⟩ := h.aggregate_spec hpos call hbuf
      obtain ⟨o, rest', buf, held', ended, hnext, hcalled⟩ := ih h.tail hbuf1
      refine ⟨o, rest', buf, held', ended1 ++ ended, ?_, ?_, hcalled.suffix.trans (suffix_cons ..), hcalled.ordinary,
        hcalled.buf, ?_, hcalled.ended, fun _ _ => Nat.lt_succ_of_le hcalled.suffix.length_le⟩
      · rw [next, if_neg hempty, if_neg hfull, hs1, Option.bind_some, hnext]
      · rw [hruns1, hcalled.runs, append_assoc]
      · rw [hcalled.out, hout1, filterMap_append, append_assoc]

/-- **All calls up to the first `nil`** deliver the results of the complete runs. -/
theorem deliver_spec (call : Call) (hpos : 0 < interval) (hmax : 0 < maxRecordSize) (h : Ordinary interval records)
    (held : List Cell) (hn : records.length < n) :
    ∃ out, deliver call interval maxRecordSize n records (result call interval held) = some out ∧
      delivered out = (rejoin (goesOn interval) held (cells records)).filterMap (result call interval) := by
  induction n generalizing records held with
  | zero => omega
  | succ n ih =>
    have hbuf : (Reducer.mk (result call interval held) []).prevBuf = result call interval held := rfl
    obtain ⟨o, rest, buf, held', ended, hnext, hcalled⟩ := next_spec hpos hmax h hbuf
    rw [deliver, hnext, hcalled.runs, filterMap_append]
    cases o with
    | none =>
      refine ⟨[], rfl, ?_⟩
      rw [hcalled.ended rfl, cells, rejoin, filterMap_nil, append_nil]
      exact hcalled.out
    | some rec =>
      have hlt := hcalled.progress rfl (Option.some_ne_none _)
      obtain ⟨out, hdeliver, hout⟩ := ih hcalled.ordinary held' (show rest.length < n by omega)
      refine ⟨rec ++ out, ?_, ?_⟩
      · dsimp only
        rw [hcalled.buf, hdeliver]
        rfl
      · rw [delivered_append, hout]
        exact congrArg (· ++ _) hcalled.out

variable {buf : Option (ℤ × Int64)}

theorem deliver_succ (h : deliver call interval maxRecordSize n records buf = some out) :
    deliver call interval maxRecordSize (n + 1) records buf = some out := by
  induction n generalizing records buf out with
  | zero => exact absurd h (by simp [deliver])
  | succ n ih =>
    rw [deliver] at h ⊢
    generalize next call interval maxRecordSize records ⟨buf, []⟩ = r at h ⊢
    match r with
    | none => exact h
    | some (none, _, _) => exact h
    | some (some rec, rest, buf) =>
      obtain ⟨o, ho, rfl⟩ := Option.map_eq_some_iff.mp h
      simp only [ih ho, Option.map_some]

theorem deliver_mono (hle : n ≤ m) (h : deliver call interval maxRecordSize n records buf = some out) :
    deliver call interval maxRecordSize m records buf = some out := by
  induction m, hle using Nat.le_induction with
  | base => exact h
  | succ m _ ih => exact deliver_succ ih

theorem deliver_unique {out' : List Row} (h : deliver call interval maxRecordSize n records buf = some out)
    (h' : deliver call interval maxRecordSize m records buf = some out') : out = out' := by
  have hn := deliver_mono (Nat.le_max_left n m) h
  have hm := deliver_mono (Nat.le_max_right n m) h'
  exact Option.some.inj (hn.symm.trans hm)

end Calls

end GeminiTS.Agg
