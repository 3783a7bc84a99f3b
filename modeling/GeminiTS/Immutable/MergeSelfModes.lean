import GeminiTS.Immutable.MergeSelf
import GeminiTS.Immutable.WriteRemain

/-!
# MergeSelfModes — the fast and the stream mode of merging out-of-order files

`mergeTool.mergeSelf` (`engine/immutable/merge_tool.go`) merges out-of-order files among themselves
either in memory (`MergeSelf`) or as a stream, where the first file takes the part of the ordered
file and the others are merged into it.
-/

namespace GeminiTS

open Lib List SeriesFile Table

variable {F V : Type*} [LinearOrder F]

/-- `mergeSelfStreamMode` for one series: the first file is the ordered one, and what it does not
have is written at its end. -/
def mergeSelfStreamMode (limit : ℕ) (files : List (SeriesFile F V)) (s : ℕ) : Option (List (SeriesOut F V)) :=
  match files with
  | [] => none
  | first :: others =>
    let ur := UnorderedReader.init (others.filterMap (·.lookup s))
    match first.lookup s with
    | some c => mergeSeries limit s [c] ur
    | none => (MergePerformer.writeRemain limit s ur).map ([·])

theorem newest_seriesTables (files : List (SeriesFile F V)) (s : ℕ) : newest (files.map (table s)) =
      newest ((files.filterMap (·.lookup s)).map Chunk.table) := by
  induction files with
  | nil => rfl
  | cons file files ih =>
    rw [map_cons, newest_cons, ih, table]
    cases h : file.lookup s with
    | none =>
      rw [filterMap_cons_none h]
      exact overlay_empty _
    | some c =>
      rw [filterMap_cons_some h, map_cons, newest_cons]
      rfl

namespace SelfMergeInput

variable (i : SelfMergeInput F V)

/-- **The stream mode** writes the rows of all files, the newest value of each. -/
theorem mergeSelfStreamMode_eq_newest (hlimit : ColumnWriter.Whole i.limit) (s : ℕ) :
    ∃ outs, mergeSelfStreamMode i.limit i.files s = some outs ∧
      Sorted (before true) (outs.flatMap fun o => o.record.rows) ∧
      toTable (outs.flatMap fun o => o.record.rows) = newest (i.files.map (table s)) := by
  obtain ⟨first, others, hfiles⟩ := exists_cons_of_ne_nil i.files_ne
  have hothers : ∀ c ∈ others.filterMap (·.lookup s), c.WF := by
    intro c hc
    obtain ⟨file, hfile, hl⟩ := mem_filterMap.mp hc
    exact i.chunk_wf file (hfiles ▸ mem_cons_of_mem _ hfile) _ (mem_of_lookup hl)
  have hmem : first ∈ i.files := hfiles ▸ mem_cons_self
  rw [hfiles, map_cons, newest_cons, newest_seriesTables, mergeSelfStreamMode, table]
  cases hl : first.lookup s with
  | some c =>
    have hc := i.chunk_wf first hmem _ (mem_of_lookup hl)
    let input : MergeInput F V := {
      limit := i.limit, limit_pos := i.limit_pos
      sid := s, sid_ne := i.sid_ne first hmem _ (mem_of_lookup hl)
      ordered := [c], ordered_ne := cons_ne_nil _ _
      ordered_wf := by simpa using hc
      ordered_times := by simpa using hc.ascending
      unordered := others.filterMap (·.lookup s), unordered_wf := hothers }
    obtain ⟨outs, hrun, hmerged⟩ := input.mergedFrom_start hlimit
    obtain ⟨hsorted, htable⟩ := hmerged.overlay hothers input.lower_lt_unordered
    refine ⟨outs, hrun, hsorted, htable.trans ?_⟩
    show overlay _ (toTable ([c].flatMap Chunk.rows)) = _
    rw [flatMap_singleton]
    rfl
  | none =>
    obtain ⟨out, hrun, -, -, hsorted, htable⟩ := RemainInput.writeRemain_eq_overlay ⟨i.limit, hlimit, _, hothers⟩ s
    refine ⟨[out], by rw [hrun]; rfl, ?_, ?_⟩
    · rw [flatMap_singleton]
      exact hsorted
    · rw [flatMap_singleton, htable]
      exact (overlay_empty _).symm

theorem cell_newest_files {α : Type*} {l : List α} {g : α → SeriesFile F V}
    (h : ∀ a ∈ l, g a ∈ i.files) (s : ℕ) (t : ℤ) (f : F) :
    cell (newest (l.map fun a => (g a).table s)) t f = l.reverse.findSome? fun a => (g a).value s t f := by
  induction l using reverseRecOn with
  | nil => rfl
  | append_singleton l a ih =>
    rw [map_append, map_singleton, newest_concat, cell_overlay,
      i.cell_table (h a (by simp)), ih fun b hb => h b (mem_append_left _ hb),
      reverse_append, reverse_singleton, singleton_append, findSome?_cons]
    cases value s t f (g a) <;> rfl

theorem file_mem_of_mem_heapOrder {s k : ℕ} (h : k ∈ heapOrder i.keys s) : i.file k ∈ i.files := by
  obtain ⟨file, hfile, -⟩ := i.mem_heapOrder_keys.mp h
  exact i.file_of_getElem? hfile ▸ mem_of_getElem? hfile

/-- In whichever order the files of a series are laid over each other, they have the same times. -/
theorem newest_heapOrder_isSome (s : ℕ) (t : ℤ) :
    (newest ((heapOrder i.keys s).map fun k => (i.file k).table s) t).isSome ↔
      (newest (i.files.map (table s)) t).isSome := by
  rw [newest_isSome, newest_isSome]
  simp only [mem_map, exists_exists_and_eq_and]
  constructor
  · rintro ⟨k, hk, ht⟩
    exact ⟨i.file k, i.file_mem_of_mem_heapOrder hk, ht⟩
  · rintro ⟨file, hfile, ht⟩
    obtain ⟨k, hk⟩ := getElem?_of_mem hfile
    have hs : s ∈ file.map Prod.fst := by
      rw [← lookup_isSome]
      unfold table at ht
      cases hl : file.lookup s with
      | none => simp [hl] at ht
      | some c => rfl
    exact ⟨k, i.mem_heapOrder_keys.mpr ⟨file, hk, hs⟩, i.file_of_getElem? hk ▸ ht⟩

end SelfMergeInput

/-- The records written hold the newest value of every series, time and field, as those of the stream
mode do. -/
def KeepsNewest (i : SelfMergeInput F V) (out : List (ℕ × Record F V)) : Prop :=
  ∀ s, Sorted (before true) (rowsOf out s) ∧ toTable (rowsOf out s) = Table.newest (i.files.map (SeriesFile.table s)) ∧
    ∃ outs, mergeSelfStreamMode i.limit i.files s = some outs ∧ rowsOf out s = outs.flatMap fun o => o.record.rows

/-- Two files of one series. The older one has time 5, the newer one times 3 and 5, or 5 and 7. -/
def overlappingFiles (newer : List ℤ) (h : newer ∈ [[3, 5], [5, 7]]) : SelfMergeInput ℕ ℕ where
  limit := 8
  limit_pos := Nat.succ_pos 7
  files := [[(1, ⟨[(0, [[some 10]])], [[5]]⟩)], [(1, ⟨[(0, [[some 20, some 21]])], [newer]⟩)]]
  files_ne := by simp
  sids := by simp
  sid_ne := by simp
  chunk_wf := by
    simp only [mem_cons, not_mem_nil, or_false] at h
    rcases h with rfl | rfl <;> decide
  cols_ne := by simp

end GeminiTS
