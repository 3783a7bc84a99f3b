import GeminiTS.Agg.WindowRun

/-!
# WindowAnswers — one row for each window

The values of a window come out as one row, with the time of the row that was selected or with some time of the window.
Three things get in the way: rows of different windows held together over an empty record, rows held back for good
because an empty record is the last one, and sums, whose time is looked up by the number of a value instead of the
number of a row.

* `WindowQuery.answered_iff_clear` — a query is answered exactly if all of its runs are clear.
-/

namespace GeminiTS.Agg

open Lib List InRecord

/-! ### Complete runs -/

/-- No empty record follows the run. -/
def complete (run : List Cell) : Bool := run.getLast?.all fun c => !c.beforeEmpty

/-- **What is delivered are the results of the complete runs.** -/
theorem filter_complete (interval : ℤ) (records : List InRecord) :
    (runs interval records).filter complete = rejoin (goesOn interval) [] (cells records) := by
  have hmore : ∀ x y : Cell, goesOn interval x none = true → goesOn interval x (some y) = true := by
    intro x y hx
    simp only [goesOn, Option.any_none, Bool.or_false] at hx
    rw [goesOn, hx, Bool.true_or]
  have hsplit := splitBy_filter hmore [] (cells records) isChain_nil fun x hx => absurd hx (by simp)
  rw [← hsplit]
  refine filter_congr fun run _ => ?_
  simp [complete, goesOn]

/-! ### The times of counts and sums -/

section Stamp

variable {interval : ℤ} {records : List InRecord} {c : Cell}

theorem record_of_mem_cells (hc : c ∈ cells records) : c.record ∈ records ∧ c.row ∈ c.record.rows := by
  induction records with
  | nil => exact absurd hc not_mem_nil
  | cons r rest ih =>
    rcases mem_append.mp hc with hc | hc
    · have hrec := record_of_mem_cellsOf hc
      refine ⟨hrec ▸ mem_cons_self, ?_⟩
      rw [hrec, ← map_row_cellsOf]
      exact mem_map_of_mem hc
    · exact (ih hc).imp_left (mem_cons_of_mem _)

variable (hpos : 0 < interval) (h : Ordinary interval records)

include hpos h

theorem Ordinary.rows_sorted {r : InRecord} (hr : r ∈ records) :
    r.rows.Pairwise fun x y => x.1 / interval ≤ y.1 / interval := by
  have hasc : r.times.Pairwise (· < ·) := h.ascending.sublist (sublist_flatten_of_mem (mem_map_of_mem hr))
  rw [InRecord.times, pairwise_map] at hasc
  exact hasc.imp fun hlt => Int.ediv_le_ediv hpos hlt.le

/-- The rows of earlier windows come first, and then a row of the window. -/
theorem Ordinary.split_rows (hc : c ∈ cells records) :
    ∃ p after, c.record.rows = c.record.rows.filter (fun y => y.1 / interval < c.win interval) ++ p :: after ∧
      p.1 / interval = c.win interval := by
  obtain ⟨hrec, hrow⟩ := record_of_mem_cells hc
  have hsorted := h.rows_sorted hpos hrec
  generalize c.record.rows = rows at hrow hsorted
  induction rows with
  | nil => exact absurd hrow not_mem_nil
  | cons x rows ih =>
    have htail := pairwise_cons.mp hsorted
    by_cases hx : x.1 / interval < c.win interval
    · have hrow' : c.row ∈ rows := by
        rcases mem_cons.mp hrow with rfl | hrow
        · exact absurd hx (Int.lt_irrefl _)
        · exact hrow
      obtain ⟨p, after, heq, hp⟩ := ih hrow' htail.2
      refine ⟨p, after, ?_, hp⟩
      rw [filter_cons_of_pos (by simpa using hx), cons_append, ← heq]
    · have hle : x.1 / interval ≤ c.win interval := by
        rcases mem_cons.mp hrow with heq | hrow
        · rw [Cell.win, heq]
        · exact htail.1 _ hrow
      refine ⟨x, rows, ?_, by omega⟩
      have hnone : ∀ y ∈ x :: rows, ¬ decide (y.1 / interval < c.win interval) = true := by
        intro y hy
        rw [decide_eq_true_eq]
        rcases mem_cons.mp hy with rfl | hy
        · exact hx
        · have := htail.1 y hy
          omega
      rw [filter_eq_nil_iff.mpr hnone, nil_append]

omit hpos h in
theorem time_of_lt {r : InRecord} {before after : List Row} (hr : r.rows = before ++ after) {k : ℕ}
    (hk : k < before.length) : ∃ y ∈ before, r.time k = y.1 := by
  refine ⟨before[k], getElem_mem hk, ?_⟩
  rw [time, InRecord.times, hr, getElem?_map, getElem?_append_left hk, getElem?_eq_getElem hk]
  rfl

/-- The time of a part is that of an earlier window, if a null comes before the part and a sum is asked for. -/
theorem Ordinary.stamp_le (hc : c ∈ cells records) (call : Call) : c.stamp interval call / interval ≤ c.win interval ∧
      (c.stamp interval call / interval = c.win interval ↔
        (call = .sum → ∀ y ∈ c.record.rows, y.1 / interval < c.win interval → y.2.isSome)) := by
  obtain ⟨p, after, hrows, hp⟩ := h.split_rows hpos hc
  have hall : (∀ y ∈ c.record.rows, y.1 / interval < c.win interval → y.2.isSome) ↔
      ∀ y ∈ c.record.rows.filter (fun y => y.1 / interval < c.win interval), y.2.isSome := by
    simp
  have hearly : ∀ y ∈ c.record.rows.filter (fun y => y.1 / interval < c.win interval),
      y.1 / interval < c.win interval := fun y hy => of_decide_eq_true (mem_filter.mp hy).2
  rw [hall, Cell.stamp]
  generalize c.record.rows.filter (fun y => y.1 / interval < c.win interval) = before at hrows hearly
  have hat : c.record.time before.length / interval = c.win interval := by
    rw [← hp, InRecord.time, InRecord.times, hrows]
    simp
  rw [partStamp]
  split_ifs with hsum
  · have hlen : (valued before).length = before.length ↔ ∀ y ∈ before, y.2.isSome := by
      rw [valued]
      simp
    have hle : (valued before).length ≤ before.length := length_filterMap_le ..
    rcases Nat.lt_or_eq_of_le hle with hlt | heq
    · obtain ⟨y, hy, htime⟩ := time_of_lt hrows hlt
      have hyw := hearly y hy
      rw [htime]
      refine ⟨hyw.le, fun h => absurd h hyw.ne, fun h => ?_⟩
      exact absurd (hlen.mpr (h hsum)) hlt.ne
    · rw [heq, hat]
      exact ⟨Int.le_refl _, fun _ _ => hlen.mp heq, fun _ => rfl⟩
  · rw [hat]
    exact ⟨Int.le_refl _, fun _ h => absurd h hsum, fun _ => rfl⟩

end Stamp

/-! ### One row for each window -/

/-- The rows answer a call: one row for each window with a value, in order, with the aggregate of the values of its
window. -/
structure Answers (call : Call) (interval : ℤ) (rows : List Row) (out : List (ℤ × Int64)) : Prop where
  ascending : (out.map fun o => o.1 / interval).Pairwise (· < ·)
  covers : ∀ p ∈ valued rows, ∃ o ∈ out, o.1 / interval = p.2 / interval
  aggregates : ∀ o ∈ out, answer call o.1 ((valued rows).filter fun p => p.2 / interval = o.1 / interval) = some o

/-- The values of a run are in one window, they are given out, and a sum gets a time of the window: in the record of the
first value no null comes before the window. -/
structure Clear (call : Call) (interval : ℤ) (run : List Cell) : Prop where
  oneWindow : ∀ p ∈ vals run, ∀ q ∈ vals run, p.2 / interval = q.2 / interval
  givenOut : (∃ c, run.getLast? = some c ∧ c.beforeEmpty = true) → vals run = []
  sumTime : call = .sum → ∀ c, (run.find? fun c => c.row.2.isSome) = some c →
    ∀ y ∈ c.record.rows, y.1 / interval < c.win interval → y.2.isSome

/-- The result of the run is in the window of its values. -/
def Good (call : Call) (interval : ℤ) (run : List Cell) : Prop :=
  ∀ p ∈ vals run, complete run = true ∧ ∃ o, result call interval run = some o ∧ o.1 / interval = p.2 / interval

section Runs

variable {call : Call} {interval : ℤ} {records : List InRecord} {run : List Cell}

theorem mem_vals {p : Int64 × ℤ} : p ∈ vals run ↔ ∃ c ∈ run, c.row = (p.2, some p.1) := by
  obtain ⟨v, t⟩ := p
  simp only [vals, valued, mem_filterMap, mem_map, Option.map_eq_some_iff, Prod.mk.injEq]
  constructor
  · rintro ⟨_, ⟨c, hc, rfl⟩, w, hw, rfl, rfl⟩
    exact ⟨c, hc, Prod.ext rfl hw⟩
  · rintro ⟨c, hc, hrow⟩
    exact ⟨c.row, ⟨c, hc, rfl⟩, v, by rw [hrow], rfl, by rw [hrow]⟩

theorem exists_cell (interval : ℤ) {p : Int64 × ℤ} (hp : p ∈ vals run) :
    ∃ c ∈ run, c.win interval = p.2 / interval := by
  obtain ⟨c, hc, hcp⟩ := mem_vals.mp hp
  exact ⟨c, hc, by rw [Cell.win, hcp]⟩

theorem mem_cells_of_mem_runs (hrun : run ∈ runs interval records) {c : Cell} (hc : c ∈ run) : c ∈ cells records := by
  rw [← flatten_splitBy (together interval) (cells records)]
  exact mem_flatten.mpr ⟨run, hrun, hc⟩

theorem exists_first_value (call : Call) (interval : ℤ) (hvals : vals run ≠ []) :
    ∃ c v, (run.find? fun c => c.row.2.isSome) = some c ∧ (v, c.row.1) ∈ vals run ∧ c ∈ run ∧
      stampOf call interval run = c.stamp interval call := by
  obtain ⟨c, hc⟩ := Option.ne_none_iff_exists'.mp (mt find_eq_none_iff.mp hvals)
  have hsome := find?_some hc
  obtain ⟨v, hv⟩ := Option.isSome_iff_exists.mp hsome
  have hmem := mem_of_find?_eq_some hc
  exact ⟨c, v, hc, mem_vals.mpr ⟨c, hmem, Prod.ext rfl hv⟩, hmem, by rw [stampOf, hc]; rfl⟩

variable (hpos : 0 < interval) (h : Ordinary interval records) (hrun : run ∈ runs interval records)

include hpos h hrun

/-- The result of a run is not in a later window than its values. -/
theorem Ordinary.result_le {o : ℤ × Int64} (ho : result call interval run = some o) :
    ∃ p ∈ vals run, o.1 / interval ≤ p.2 / interval := by
  rcases answer_time ho with ⟨v, hv⟩ | ⟨-, hstamp, hvals⟩
  · exact ⟨_, hv, Int.le_refl _⟩
  · obtain ⟨c, v, -, hv, hc, heq⟩ := exists_first_value call interval hvals
    refine ⟨_, hv, ?_⟩
    rw [hstamp, heq]
    exact (h.stamp_le hpos (mem_cells_of_mem_runs hrun hc) call).1

theorem Ordinary.good_of_clear (hclear : Clear call interval run) : Good call interval run := by
  intro p hp
  have hvals : vals run ≠ [] := ne_nil_of_mem hp
  refine ⟨?_, ?_⟩
  · rw [complete, Option.all_eq_true]
    intro c hc
    by_contra hempty
    exact hvals (hclear.givenOut ⟨c, hc, by simpa using hempty⟩)
  · obtain ⟨o, ho⟩ := Option.isSome_iff_exists.mp (answer_isSome hvals)
    refine ⟨o, ho, ?_⟩
    rcases answer_time ho with ⟨v, hv⟩ | ⟨-, hstamp, -⟩
    · exact hclear.oneWindow _ hv p hp
    · obtain ⟨c, v, hfind, hv, hc, heq⟩ := exists_first_value call interval hvals
      have htime := (h.stamp_le hpos (mem_cells_of_mem_runs hrun hc) call).2.mpr fun hsum =>
        hclear.sumTime hsum c hfind
      rw [hstamp, heq, htime]
      exact hclear.oneWindow _ hv p hp

theorem Ordinary.clear_of_good (hgood : Good call interval run) : Clear call interval run where
  oneWindow p hp q hq := by
    obtain ⟨-, o, ho, hpo⟩ := hgood p hp
    obtain ⟨-, o', ho', hqo⟩ := hgood q hq
    cases ho.symm.trans ho'
    exact hpo.symm.trans hqo
  givenOut := by
    rintro ⟨c, hc, hempty⟩
    by_contra hvals
    obtain ⟨p, hp⟩ := exists_mem_of_ne_nil _ hvals
    have hcomplete := (hgood p hp).1
    rw [complete, hc, Option.all_some, hempty] at hcomplete
    exact absurd hcomplete Bool.false_ne_true
  sumTime := by
    intro hsum c hfind
    have hvals : vals run ≠ [] := fun hnil => Option.some_ne_none c (hfind.symm.trans (find_eq_none_iff.mpr hnil))
    obtain ⟨c', v, hfind', hv, hc, heq⟩ := exists_first_value call interval hvals
    cases hfind.symm.trans hfind'
    obtain ⟨-, o, ho, hpo⟩ := hgood _ hv
    refine (h.stamp_le hpos (mem_cells_of_mem_runs hrun hc) call).2.mp ?_ hsum
    rw [← heq]
    subst hsum
    rw [result, answer, if_neg hvals] at ho
    cases ho
    exact hpo

end Runs

/-! ### Good runs are answers -/

section Answer

variable {call : Call} {interval : ℤ} {records : List InRecord}

variable {run : List Cell} {w : ℤ}

theorem filter_vals_eq_nil {cs : List Cell} (h : ∀ c ∈ cs, c.win interval ≠ w) :
    (vals cs).filter (fun p => p.2 / interval = w) = [] := by
  refine filter_eq_nil_iff.mpr fun p hp => ?_
  obtain ⟨c, hc, hcw⟩ := exists_cell interval hp
  simpa [hcw] using h c hc

/-- The values of a window are those of the run that holds one of them. -/
theorem filter_vals_eq {a b : List (List Cell)}
    (hsep : (a ++ run :: b).Pairwise fun x y => ∀ c ∈ x, ∀ d ∈ y, c.win interval < d.win interval)
    (hwin : ∀ p ∈ vals run, p.2 / interval = w) (hne : vals run ≠ []) :
    (vals (a ++ run :: b).flatten).filter (fun p => p.2 / interval = w) = vals run := by
  obtain ⟨q, hq⟩ := exists_mem_of_ne_nil _ hne
  obtain ⟨d, hd, hdq⟩ := exists_cell interval hq
  rw [hwin q hq] at hdq
  obtain ⟨-, hright, hleft⟩ := pairwise_append.mp hsep
  have hbefore : ∀ c ∈ a.flatten, c.win interval ≠ w := by
    intro c hc
    obtain ⟨x, hx, hcx⟩ := mem_flatten.mp hc
    exact hdq ▸ (hleft x hx run mem_cons_self c hcx d hd).ne
  have hafter : ∀ c ∈ b.flatten, c.win interval ≠ w := by
    intro c hc
    obtain ⟨x, hx, hcx⟩ := mem_flatten.mp hc
    exact hdq ▸ (rel_of_pairwise_cons hright hx d hd c hcx).ne'
  have hself : (vals run).filter (fun p => p.2 / interval = w) = vals run :=
    filter_eq_self.mpr fun p hp => decide_eq_true (hwin p hp)
  rw [flatten_append, flatten_cons, vals_append, vals_append, filter_append, filter_append, filter_vals_eq_nil hbefore,
    hself, filter_vals_eq_nil hafter, append_nil, nil_append]

theorem vals_cells (records : List InRecord) : valued (records.flatMap rows) = vals (cells records) := by
  rw [vals, map_row_cells]

theorem flatten_runs (interval : ℤ) (records : List InRecord) : (runs interval records).flatten = cells records :=
  flatten_splitBy ..

theorem exists_mem_vals {o : ℤ × Int64} (ho : result call interval run = some o) : ∃ p, p ∈ vals run := by
  refine exists_mem_of_ne_nil _ fun hnil => ?_
  rw [result, hnil, answer_nil] at ho
  exact absurd ho.symm (Option.some_ne_none _)

variable (hpos : 0 < interval) (h : Ordinary interval records)

include hpos h

theorem Ordinary.separated :
    (runs interval records).Pairwise fun x y => ∀ c ∈ x, ∀ d ∈ y, c.win interval < d.win interval :=
  splitBy_separated (h.cells_sorted hpos) fun x y hxy => by
    rw [together, Bool.or_eq_false_iff] at hxy
    simpa using hxy.2

theorem Ordinary.answers_of_good (hgood : ∀ run ∈ runs interval records, Good call interval run) :
    Answers call interval (records.flatMap rows)
      (((runs interval records).filter complete).filterMap (result call interval)) where
  ascending := by
    rw [pairwise_map, pairwise_filterMap]
    refine (List.Pairwise.filter _ (h.separated hpos)).imp_of_mem fun {x y} hx hy hlt o ho o' ho' => ?_
    obtain ⟨p, hp⟩ := exists_mem_vals ho
    obtain ⟨q, hq⟩ := exists_mem_vals ho'
    obtain ⟨c, hc, hcp⟩ := exists_cell interval hp
    obtain ⟨d, hd, hdq⟩ := exists_cell interval hq
    obtain ⟨-, o1, ho1, hwin⟩ := hgood x (mem_filter.mp hx).1 p hp
    obtain ⟨-, o2, ho2, hwin'⟩ := hgood y (mem_filter.mp hy).1 q hq
    cases ho.symm.trans ho1
    cases ho'.symm.trans ho2
    rw [hwin, hwin', ← hcp, ← hdq]
    exact hlt c hc d hd
  covers p hp := by
    rw [vals_cells, ← flatten_runs interval records] at hp
    obtain ⟨c, hc, hcp⟩ := mem_vals.mp hp
    obtain ⟨run, hrun, hcrun⟩ := mem_flatten.mp hc
    obtain ⟨hcomplete, o, ho, hwin⟩ := hgood run hrun p (mem_vals.mpr ⟨c, hcrun, hcp⟩)
    exact ⟨o, mem_filterMap.mpr ⟨run, mem_filter.mpr ⟨hrun, hcomplete⟩, ho⟩, hwin⟩
  aggregates o ho := by
    obtain ⟨run, hrun, ho⟩ := mem_filterMap.mp ho
    have hrun := (mem_filter.mp hrun).1
    obtain ⟨p, hp⟩ := exists_mem_vals ho
    have hsep := h.separated hpos
    have hflat := flatten_runs interval records
    obtain ⟨a, b, heq⟩ := append_of_mem hrun
    rw [heq] at hsep hflat
    rw [vals_cells, ← hflat, filter_vals_eq hsep ?_ (ne_nil_of_mem hp)]
    · exact answer_self ho
    · intro q hq
      obtain ⟨-, o', ho', hwin⟩ := hgood run hrun q hq
      cases ho.symm.trans ho'
      exact hwin.symm

/-- If all windows are covered, each run covers its own values: a result is not in a later window than its run, and so
the last run has to cover itself, then the one before it, and so on. -/
theorem Ordinary.good_of_answers (hans : Answers call interval (records.flatMap rows)
      (((runs interval records).filter complete).filterMap (result call interval))) :
    ∀ run ∈ runs interval records, Good call interval run := by
  have hsuffix : ∀ b a, runs interval records = a ++ b → ∀ run ∈ b, Good call interval run := by
    intro b
    induction b with
    | nil => exact fun _ _ run hrun => absurd hrun not_mem_nil
    | cons run b ih =>
      intro a heq
      have hlater := ih (a ++ [run]) (by rw [heq, append_assoc]; rfl)
      refine forall_mem_cons.mpr ⟨fun p hp => ?_, hlater⟩
      obtain ⟨c, hc, hcp⟩ := mem_vals.mp hp
      have hrun : run ∈ runs interval records := by rw [heq]; simp
      have hpcells : p ∈ valued (records.flatMap rows) := by
        rw [vals_cells]
        exact mem_vals.mpr ⟨c, mem_cells_of_mem_runs hrun hc, hcp⟩
      obtain ⟨o, ho, hwin⟩ := hans.covers p hpcells
      obtain ⟨run', hrun', ho⟩ := mem_filterMap.mp ho
      obtain ⟨hmem, hcomplete⟩ := mem_filter.mp hrun'
      obtain ⟨q, hq, hle⟩ := h.result_le hpos hmem ho
      obtain ⟨d, hd, hdwin⟩ := exists_cell interval hq
      have hcwin : c.win interval = p.2 / interval := by rw [Cell.win, hcp]
      have hsep := h.separated hpos
      rw [heq] at hsep hmem
      obtain ⟨-, hright, hleft⟩ := pairwise_append.mp hsep
      rcases mem_append.mp hmem with hmem | hmem
      · have hlt := hleft run' hmem run mem_cons_self d hd c hc
        omega
      · rcases mem_cons.mp hmem with rfl | hmem
        · exact ⟨hcomplete, o, ho, hwin⟩
        · obtain ⟨-, o', ho', hwin'⟩ := hlater run' hmem q hq
          cases ho.symm.trans ho'
          have hlt := rel_of_pairwise_cons hright hmem c hc d hd
          omega
  exact hsuffix _ [] rfl

end Answer

/-! ### Queries -/

/-- A call over windows of time, on records whose rows come in order. -/
structure WindowQuery where
  call : Call
  interval : ℤ
  maxRecordSize : ℕ
  records : List InRecord
  interval_pos : 0 < interval
  maxRecordSize_pos : 0 < maxRecordSize
  ascending : (records.flatMap InRecord.times).Pairwise (· < ·)

namespace WindowQuery

/-- The rows the cursor delivers answer the query. -/
def Answered (q : WindowQuery) : Prop :=
  ∃ n out, deliver q.call q.interval q.maxRecordSize n q.records none = some out ∧
    Answers q.call q.interval (q.records.flatMap InRecord.rows) (delivered out)

/-- **A query is answered exactly if its runs are clear.** -/
theorem answered_iff_clear (q : WindowQuery) (h : Ordinary q.interval q.records) :
    q.Answered ↔ ∀ run ∈ runs q.interval q.records, Clear q.call q.interval run := by
  have hpos := q.interval_pos
  have hnil : result q.call q.interval [] = none := result_nil ..
  obtain ⟨out, hdeliver, hout⟩ := deliver_spec q.call hpos q.maxRecordSize_pos h [] (Nat.lt_succ_self _)
  rw [hnil] at hdeliver
  rw [← filter_complete] at hout
  constructor
  · rintro ⟨n, out', hdeliver', hans⟩
    rw [deliver_unique hdeliver' hdeliver, hout] at hans
    exact fun run hrun => h.clear_of_good hpos hrun (h.good_of_answers hpos hans run hrun)
  · intro hclear
    refine ⟨_, out, hdeliver, ?_⟩
    rw [hout]
    exact h.answers_of_good hpos fun run hrun => h.good_of_clear hpos hrun (hclear run hrun)

/-- The call on one record, in which a null of the first window comes before the value of the second one. -/
def afterNull (call : Call) : WindowQuery where
  call := call
  interval := 10
  maxRecordSize := 1024
  records := [⟨[(0, none), (10, some 5)], 0⟩]
  interval_pos := by decide
  maxRecordSize_pos := by decide
  ascending := by decide

theorem ordinary_afterNull (call : Call) : Ordinary (afterNull call).interval (afterNull call).records where
  ascending := (afterNull call).ascending
  times := by
    show ∀ r ∈ [(⟨[(0, none), (10, some 5)], 0⟩ : InRecord)], ∀ p ∈ r.rows, minTime ≤ p.1 ∧ p.1 < maxTime
    decide
  late r hr x hx := by
    cases mem_singleton.mp hr
    exact absurd hx not_mem_nil

/-- The greatest value of each window is found all the same. -/
theorem answered_max_afterNull : (afterNull .max).Answered := by
  refine (answered_iff_clear _ (ordinary_afterNull .max)).mpr ?_
  have hruns : runs (afterNull .max).interval (afterNull .max).records =
      [[⟨⟨[(0, none), (10, some 5)], 0⟩, (0, none), false⟩],
        [⟨⟨[(0, none), (10, some 5)], 0⟩, (10, some 5), false⟩]] := rfl
  rw [hruns]
  refine forall_mem_cons.mpr ⟨⟨by decide, by simp, by simp⟩, forall_mem_singleton.mpr ?_⟩
  exact ⟨by decide, by simp, by simp [afterNull]⟩

/-- A value, an empty record, and a value of the next window. -/
def emptyBetween : WindowQuery where
  call := .count
  interval := 10
  maxRecordSize := 1024
  records := [⟨[(0, some 1)], 0⟩, ⟨[], 0⟩, ⟨[(10, some 2)], 0⟩]
  interval_pos := by decide
  maxRecordSize_pos := by decide
  ascending := by decide

/-- The sum of the second window gets the time 0, and the two values around the empty record are counted as one
window. -/
theorem not_answered_afterNull : ¬ (afterNull .sum).Answered ∧ ¬ emptyBetween.Answered := by
  constructor
  · rintro ⟨n, out, hdeliver, hans⟩
    have hout : deliver .sum 10 1024 2 [⟨[(0, none), (10, some 5)], 0⟩] none = some [(0, none), (0, some 5)] := by
      decide +kernel
    cases deliver_unique hdeliver hout
    exact absurd (hans.aggregates (0, 5) (by decide)) (by decide)
  · rintro ⟨n, out, hdeliver, hans⟩
    have hout : deliver .count 10 1024 2 [⟨[(0, some 1)], 0⟩, ⟨[], 0⟩, ⟨[(10, some 2)], 0⟩] none =
        some [(0, some 2)] := by
      decide +kernel
    cases deliver_unique hdeliver hout
    exact absurd (hans.covers (2, 10) (by decide)) (by decide)

end WindowQuery

end GeminiTS.Agg
