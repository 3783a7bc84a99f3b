import GeminiTS.Record.MergeEntry

/-!
# PagedMerge — merging two records page by page

`MergeRecordLimitRows` and `MergeRecordLimitRowsDescend` (`lib/record/record.go`) are called again and again from the
positions they answered with, until one of the records is used up.

* `Paging.pagedMerge_spec` — the pages and the rows left are the merge of both records.
-/

namespace GeminiTS.Record

open Lib List Sources

variable {F V : Type*} [LinearOrder F]

/-- `MergeRecordLimitRows` or `MergeRecordLimitRowsDescend`. -/
def mergeRecordLimitRowsIn (ascending : Bool) : Record F V → Record F V → ℕ → ℕ → ℕ → Option (Record F V × ℕ × ℕ) :=
  if ascending then mergeRecordLimitRows else mergeRecordLimitRowsDescend

/-- Page after page, each with the limit it was asked with, while both positions are inside their records. -/
def pagedMerge (ascending : Bool) (new old : Record F V) (limits : ℕ → ℕ+) :
    ℕ → ℕ → ℕ → ℕ → Option (List (ℕ × Record F V) × ℕ × ℕ)
  | 0, _, i, j => some ([], i, j)
  | fuel + 1, k, i, j =>
    if i < new.rowNums ∧ j < old.rowNums then
      match mergeRecordLimitRowsIn ascending new old i j (limits k) with
      | none => none
      | some (page, i, j) =>
        (pagedMerge ascending new old limits fuel (k + 1) i j).map fun r => ((limits k, page) :: r.1, r.2)
    else some ([], i, j)

/-- Two records in order of time; ascending ones do not both end at the greatest time there is. -/
structure Paging (ascending : Bool) (F V : Type*) [LinearOrder F] where
  new : Record F V
  old : Record F V
  newWF : new.WF
  oldWF : old.WF
  newSorted : new.times.Pairwise (before ascending)
  oldSorted : old.times.Pairwise (before ascending)
  int64 : ∀ t ∈ new.times ++ old.times, minInt64 ≤ t ∧ t ≤ maxInt64
  apart : ascending = true → maxInt64 ∉ new.times ∨ maxInt64 ∉ old.times

namespace Paging

variable {ascending : Bool} (M : Paging ascending F V) {i j limit : ℕ}

/-- All rows of both records take part. -/
def sources : Sources ascending F V := ofRows M.newWF M.oldWF M.newSorted M.oldSorted _ le_rfl

section

variable (hi : i < M.new.times.length) (hj : j < M.old.times.length) (hl : 0 < limit)

include hi hj hl

theorem mergeRecordLimit_put {overlap : Record F V → Record F V → List ℤ → List ℤ → ℕ → ℕ → ℕ → ℕ → ℕ →
      Option (Record F V × ℕ × ℕ)}
    (hov : M.sources.Merges (ofSchema M.sources.schema) i j limit
      (overlap M.new M.old M.new.times M.old.times i j M.new.rowNums M.old.rowNums limit)) :
    ∃ page i' j' l', mergeRecordLimit ascending overlap M.new M.old i j limit = some (page, i', j') ∧
      M.sources.Put (ofSchema M.sources.schema) page i j i' j' limit l' ∧ l' < limit := by
  obtain ⟨newFirst, oldFirst, newLast, oldLast, hnf, hof, hnl, hol⟩ := M.sources.times hi hj
  dsimp only [sources, ofRows] at hnf hof hnl hol
  unfold mergeRecordLimit
  rw [getLast?_eq_getElem?, getLast?_eq_getElem?, hnf, hof, hnl, hol]
  dsimp only
  split_ifs with h1 h2
  · -- `old` in front of `new`
    have hp : Precede ascending (M.old.times.extract j _) _ := precede_of_last (S := M.sources.symm) hol hnf h1
    obtain ⟨page, j', i', l', heq, hput, hlt⟩ := mergeRecordNonOverlap_put hj hi.le hp hl
    rw [schema_symm] at hput
    exact ⟨page, i', j', l', congrArg some heq, hput.symm hp, hlt⟩
  · obtain ⟨page, i', j', l', heq, hput, hlt⟩ :=
      mergeRecordNonOverlap_put hi hj.le (precede_of_last (S := M.sources) hnl hof h2) hl
    dsimp only [sources, ofRows] at heq
    exact ⟨page, i', j', l', by rw [rowNums_eq, rowNums_eq, heq], hput, hlt⟩
  · exact hov.exists_put hi hl

/-- **One page.** -/
theorem mergeRecordLimitRowsIn_put :
    ∃ page i' j' l', mergeRecordLimitRowsIn ascending M.new M.old i j limit = some (page, i', j') ∧
      M.sources.Put (ofSchema M.sources.schema) page i j i' j' limit l' ∧ l' < limit := by
  cases ascending with
  | true =>
    refine M.mergeRecordLimit_put hi hj hl ?_
    have hm := mergeRecordOverlap_merges M.sources hi hj (fun t ht => ?_) hl
    · simpa [sources, ofRows] using hm
    · refine ⟨(M.int64 t (mem_append_left _ ht)).1, fun u hu htu => ?_⟩
      have hle := (M.int64 u (mem_append_right _ hu)).2
      refine lt_of_le_of_ne (htu.trans hle) ?_
      rintro rfl
      exact (M.apart rfl).elim (· ht) (· (le_antisymm htu hle ▸ hu))
  | false =>
    refine M.mergeRecordLimit_put hi hj hl ?_
    have hm := mergeRecordOverlapDescend_merges M.sources hi hj hl
    simpa [sources, ofRows] using hm

end

/-- All pages: one of the records is used up at the end. -/
theorem pagedMerge_left (limits : ℕ → ℕ+) (fuel k : ℕ) (hi : i ≤ M.new.times.length) (hj : j ≤ M.old.times.length)
    (hfuel : M.new.times.length - i + (M.old.times.length - j) ≤ fuel) :
    ∃ pages i' j', pagedMerge ascending M.new M.old limits fuel k i j = some (pages, i', j') ∧
      (i' = M.new.times.length ∨ j' = M.old.times.length) ∧
      (∀ p ∈ pages, p.2.rows.length ≤ p.1 ∧ p.2.schema = M.sources.schema) ∧
      M.sources.left i j = pages.flatMap (·.2.rows) ++ M.sources.left i' j' := by
  induction fuel generalizing k i j with
  | zero => exact ⟨[], i, j, rfl, by omega, by simp, rfl⟩
  | succ fuel ih =>
    unfold pagedMerge
    by_cases h : i < M.new.rowNums ∧ j < M.old.rowNums
    swap
    · rw [if_neg h]
      simp only [rowNums_eq] at h
      exact ⟨[], i, j, rfl, by omega, by simp, rfl⟩
    obtain ⟨page, i1, j1, l', heq, hput, hlt⟩ := M.mergeRecordLimitRowsIn_put h.1 h.2 (limits k).pos
    obtain ⟨out, hrows, hleft, hlen⟩ := hput.out
    obtain rfl : page.rows = out := hrows
    have hi1 := hput.newLe
    have hj1 := hput.oldLe
    -- a page has a row, so a position moved on
    have hmove : i + j < i1 + j1 := by
      by_contra hnot
      obtain ⟨rfl, rfl⟩ : i1 = i ∧ j1 = j := by omega
      have := congrArg length hleft
      rw [length_append] at this
      omega
    obtain ⟨pages, i', j', heq', hend, hpages, hleft'⟩ := ih (k + 1) hi1.2 hj1.2
      (by dsimp only [sources, ofRows] at hi1 hj1; omega)
    rw [if_pos h, heq]
    refine ⟨(limits k, page) :: pages, i', j', by simp [heq'], hend,
      forall_mem_cons.mpr ⟨⟨Nat.le.intro hlen, ?_⟩, hpages⟩, ?_⟩
    · exact hput.schema.trans (schema_ofSchema _)
    · rw [hleft, hleft', flatMap_cons, append_assoc]

/-- **Paged merging is whole merging**: pages within their limits, with the columns of both records, and then the rows
left on one side; together they are in order of time and stand for the new record laid over the old one. -/
theorem pagedMerge_spec (limits : ℕ → ℕ+) :
    ∃ pages i j, pagedMerge ascending M.new M.old limits (M.new.rowNums + M.old.rowNums) 0 0 0 = some (pages, i, j) ∧
      (i = M.new.rowNums ∨ j = M.old.rowNums) ∧
      (∀ p ∈ pages, p.2.rows.length ≤ p.1 ∧ p.2.schema.Pairwise (· < ·) ∧
        ∀ f, f ∈ p.2.schema ↔ f ∈ M.new.schema ∨ f ∈ M.old.schema) ∧
      Sorted (before ascending) (pages.flatMap (·.2.rows) ++ (M.new.rows.drop i ++ M.old.rows.drop j)) ∧
      toTable (pages.flatMap (·.2.rows) ++ (M.new.rows.drop i ++ M.old.rows.drop j)) =
        (toTable M.new.rows).overlay (toTable M.old.rows) := by
  obtain ⟨pages, i, j, heq, hend, hpages, hleft⟩ :=
    M.pagedMerge_left limits (M.new.rowNums + M.old.rowNums) 0 (Nat.zero_le _) (Nat.zero_le _) le_rfl
  have hdrop (i j : ℕ) : M.sources.left i j = Lib.merge (before ascending) (M.new.rows.drop i) (M.old.rows.drop j) := by
    rw [← extract_length, ← extract_length, length_rows, length_rows]
    rfl
  have hrest : M.sources.left i j = M.new.rows.drop i ++ M.old.rows.drop j := by
    rw [hdrop]
    rcases hend with rfl | rfl
    · rw [← length_rows M.new, drop_length, merge_nil_left, nil_append]
    · rw [← length_rows M.old, drop_length, merge_nil_right, append_nil]
  rw [hdrop, hrest] at hleft
  refine ⟨pages, i, j, heq, hend, fun p hp => ⟨(hpages p hp).1, ?_, fun f => ?_⟩, ?_, ?_⟩
  · rw [(hpages p hp).2]
    exact mergeRecordSchema_ordered M.newWF.ordered M.oldWF.ordered
  · rw [(hpages p hp).2]
    exact mem_mergeRecordSchema
  · rw [← hleft]
    exact (sorted_rows M.newSorted).merge (sorted_rows M.oldSorted)
  · rw [← hleft]
    exact toTable_merge (sorted_rows M.newSorted) (sorted_rows M.oldSorted)

/-- Two records with a common time and different columns. -/
def sample : Paging true ℕ ℕ where
  new := ⟨[(0, [some 1, none]), (1, [none, some 2])], [10, 30]⟩
  old := ⟨[(0, [some 3, some 4, some 5])], [10, 20, 30]⟩
  newWF := by decide
  oldWF := by decide
  newSorted := by decide
  oldSorted := by decide
  int64 := by decide
  apart := fun _ => .inl (by decide)

theorem sample_pagedMerge : ∃ pages i j,
    pagedMerge true sample.new sample.old (fun _ => 1) 5 0 0 0 = some (pages, i, j) ∧
    toTable (pages.flatMap (·.2.rows) ++ (sample.new.rows.drop i ++ sample.old.rows.drop j)) =
      (toTable sample.new.rows).overlay (toTable sample.old.rows) := by
  obtain ⟨pages, i, j, heq, -, -, -, htable⟩ := sample.pagedMerge_spec fun _ => 1
  exact ⟨pages, i, j, heq, htable⟩

end Paging

/-- Two records with a row at the greatest time: the search for the time after it wraps around, and both rows come
out. -/
theorem pagedMerge_greatest :
    (pagedMerge true (⟨[(0, [some 1])], [maxInt64]⟩ : Record ℕ ℕ) ⟨[(0, [some 2])], [maxInt64]⟩
      (fun _ => 2) 2 0 0 0).map
      (fun r => r.1.map (·.2.times)) = some [[maxInt64, maxInt64]] := by
  decide +kernel

end GeminiTS.Record
