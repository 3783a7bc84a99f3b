import GeminiTS.Immutable.Chunk
import GeminiTS.Lib.HeapGroups
import GeminiTS.Lib.Lists
import GeminiTS.Record.ColumnSort
import GeminiTS.Record.RecordMerge

/-!
# MergeSelf — merging out-of-order files among themselves in memory

`MergeSelf.Merge` (`engine/immutable/merge_self.go`) reads the chunks of all files through
`ChunkIterators` (`chunk_iterators.go`), a heap ordered by series and then by the first time of the
chunk. Chunks of one series are appended in the order in which they leave the heap, and the result is
sorted by time.

The functions return `none` where the source panics or would not return.
-/

namespace GeminiTS

open Lib Feed

variable {F V : Type*} [LinearOrder F]

/-- An out-of-order file: its chunks by series. -/
abbrev SeriesFile (F V : Type*) := List (ℕ × Chunk F V)

/-- The iterators over the files that are not empty, each at its first item. -/
def feeds {α : Type*} (files : List (List α)) : List (Feed α) := files.zipIdx.filterMap fun (file, k) =>
    match file with
    | [] => none
    | a :: rest => some ⟨k, a, rest⟩

/-- A `ChunkIterator`: the record of its current chunk, and the chunks after it. -/
abbrev ChunkIterator (F V : Type*) := Feed (ℕ × Record F V)

namespace ChunkIterators

/-- `MinTime(true)` of a record. -/
def minTime (rec : Record F V) : ℤ := rec.times.headD 0

/-- What `Less` compares: the series, then the first time. -/
def key (c : ℕ × Record F V) : ℕ × ℤ := (c.1, minTime c.2)

/-- The loop of `Next`: chunks of series `id` are appended as long as they come first. -/
def mergeLoop (id : ℕ) (merged : Record F V) (itrs : List (ChunkIterator F V)) :
    Option (Record F V × List (ChunkIterator F V)) :=
  match _hpop : Heap.pop (Feed.less key) itrs with
  | none => some (merged, itrs)
  | some (itr, itrs') =>
    if itr.cur.1 = id then
      match merged.merge itr.cur.2 with
      | none => none
      | some merged => mergeLoop id merged (Feed.pushNext key itrs' itr)
    else some (merged, Heap.push (Feed.less key) itrs' itr)
termination_by Feed.size itrs
decreasing_by
  have := Feed.size_pushNext key ‹_›
  omega

/-- `Next`: the next series with the rows of all its chunks; the inner `none` is the end. -/
def next (itrs : List (ChunkIterator F V)) : Option (Option (ℕ × Record F V × List (ChunkIterator F V))) :=
  match Heap.pop (Feed.less key) itrs with
  | none => some none
  | some (itr, itrs') =>
    ((Record.ofSchema itr.cur.2.schema).merge itr.cur.2).bind fun merged =>
      (mergeLoop itr.cur.1 merged (Feed.pushNext key itrs' itr)).map fun (merged, itrs) =>
        some (itr.cur.1, merged, itrs)

/-- Appending a list of chunks. -/
def mergeItems (merged : Record F V) (items : List (ℕ × ℕ × Record F V)) : Option (Record F V) :=
  items.foldlM (fun merged x => merged.merge x.2.2) merged

theorem mergeLoop_eq (id : ℕ) (merged : Record F V) (itrs : List (ChunkIterator F V)) : mergeLoop id merged itrs =
      (mergeItems merged (collect key id itrs).1).map (·, (collect key id itrs).2) := by
  have hkey : ∀ c : ℕ × Record F V, (key c).1 = c.1 := fun _ => rfl
  fun_induction mergeLoop id merged itrs with
  | case1 merged itrs hpop =>
    rw [collect_eq, hpop]
    rfl
  | case2 merged itrs itr itrs' hpop hid hnone =>
    rw [collect_eq, hpop]
    simp only [hkey, if_pos hid, mergeItems, List.foldlM_cons, hnone]
    rfl
  | case3 merged itrs itr itrs' hpop hid merged' hsome ih =>
    rw [collect_eq, hpop]
    simp only [hkey, if_pos hid, mergeItems, List.foldlM_cons, hsome]
    exact ih
  | case4 merged itrs itr itrs' hpop hne =>
    rw [collect_eq, hpop]
    simp only [hkey, if_neg hne]
    rfl

variable {itrs itrs' : List (ChunkIterator F V)}

theorem next_of_some {itr : ChunkIterator F V} (hpop : Heap.pop (less key) itrs = some (itr, itrs')) :
    next itrs = (mergeItems (Record.ofSchema itr.cur.2.schema) ((itr.source, itr.cur) ::
        (collect key itr.cur.1 (pushNext key itrs' itr)).1)).map fun merged =>
        some (itr.cur.1, merged, (collect key itr.cur.1 (pushNext key itrs' itr)).2) := by
  rw [next, hpop]
  simp only [mergeLoop_eq, mergeItems, List.foldlM_cons]
  cases (Record.ofSchema itr.cur.2.schema).merge itr.cur.2 with
  | none => rfl
  | some merged => simp only [Option.map_map]; rfl

theorem size_next {sid : ℕ} {rec : Record F V} (h : next itrs = some (some (sid, rec, itrs'))) :
    size itrs' < size itrs := by
  cases hpop : Heap.pop (less key) itrs with
  | none =>
    rw [next, hpop] at h
    exact absurd h (by simp)
  | some p =>
    obtain ⟨itr, rest⟩ := p
    rw [next_of_some hpop, Option.map_eq_some_iff] at h
    obtain ⟨merged, -, heq⟩ := h
    obtain ⟨rfl, -, rfl⟩ : itr.cur.1 = sid ∧ merged = rec ∧ _ = itrs' := by simpa using heq
    have := size_pushNext key hpop
    have := size_collect key itr.cur.1 (pushNext key rest itr)
    omega

end ChunkIterators

namespace MergeSelf

open ChunkIterators

/-- The loop of `Merge`: series after series, checked, sorted and written. -/
def run (itrs : List (ChunkIterator F V)) : Option (List (ℕ × Record F V)) :=
  match _hnext : next itrs with
  | none => none
  | some none => some []
  | some (some (sid, rec, itrs')) =>
    if sid = 0 then some []
    else
      (Record.checkRecord rec).bind fun rec =>
        (run itrs').map ((sid, ColumnSortHelper.sort rec) :: ·)
termination_by Feed.size itrs
decreasing_by exact size_next ‹_›

/-- `createIterators`: the chunks of every file as records, then `heap.Init`. -/
def createIterators (files : List (SeriesFile F V)) : List (ChunkIterator F V) :=
  Heap.init (Feed.less key) (feeds (files.map (List.map fun p => (p.1, p.2.record))))

/-- The records written, by series. -/
def merge (files : List (SeriesFile F V)) : Option (List (ℕ × Record F V)) :=
  -- the first file gives the name of the new one
  if files.isEmpty then none else run (createIterators files)

end MergeSelf

open MergeSelf

/-! ### What the fast mode writes -/

open ChunkIterators List

/-- A chunk of a real series with rows in time order and a column. -/
structure GoodItem (x : ℕ × ℕ × Record F V) : Prop where
  sid_ne : x.2.1 ≠ 0
  wf : x.2.2.WF
  times_ne : x.2.2.times ≠ []
  cols_ne : x.2.2.cols ≠ []
  ascending : x.2.2.times.Pairwise (· < ·)

theorem mergeItems_spec {items : List (ℕ × ℕ × Record F V)} (hi : ∀ x ∈ items, GoodItem x)
    {merged : Record F V} (hm : merged.WF) :
    ∃ u, mergeItems merged items = some u ∧ u.WF ∧ u.rows = merged.rows ++ items.flatMap (fun x => x.2.2.rows) ∧
      ∀ f ∈ merged.schema, f ∈ u.schema := by
  induction items generalizing merged with
  | nil => exact ⟨merged, rfl, hm, by simp, fun _ => id⟩
  | cons x items ih =>
    have hx := hi x (by simp)
    obtain ⟨m, hmerge, hmwf, hrows, hschema⟩ := Record.rows_merge hm hx.wf hx.times_ne
    obtain ⟨u, hu, huwf, hurows, huschema⟩ := ih (forall_mem_cons.mp hi).2 hmwf
    refine ⟨u, ?_, huwf, ?_, fun f hf => huschema f ((hschema f).mpr (.inl hf))⟩
    · rw [mergeItems, foldlM_cons, hmerge]
      exact hu
    · rw [hurows, hrows, flatMap_cons, append_assoc]

/-- The record written for the chunks of a series. -/
structure Written (p : ℕ × List (ℕ × ℕ × Record F V)) (q : ℕ × Record F V) : Prop where
  sid_eq : q.1 = p.1
  wf : q.2.WF
  ascending : q.2.times.Pairwise (· < ·)
  table : toTable q.2.rows = logTable (p.2.flatMap fun x => x.2.2.rows)

theorem run_spec {itrs : List (ChunkIterator F V)} (hr : Feed.Ready key itrs)
    (hgood : ∀ x ∈ remaining itrs, GoodItem x) :
    ∃ out, run itrs = some out ∧ List.Forall₂ Written (groups key itrs) out := by
  fun_induction groups key itrs with
  | case1 itrs hpop =>
    refine ⟨[], ?_, .nil⟩
    have hnext : ChunkIterators.next itrs = some none := by rw [ChunkIterators.next, hpop]
    rw [MergeSelf.run]
    split <;> simp_all
  | case2 itrs itr itrs' hpop g rest ih =>
    have hperm := remaining_pushNext hpop
    have hcol := collect_spec (hr.pushNext hpop) fun x hx =>
      hr.pop_le hpop x (hperm.mem_iff.mpr (mem_cons_of_mem _ hx))
    have htaken : ∀ x ∈ (itr.source, itr.cur) :: rest.1, GoodItem x := by
      intro x hx
      refine hgood x (hperm.mem_iff.mpr ?_)
      rcases mem_cons.mp hx with rfl | hx
      · exact mem_cons_self
      · exact mem_cons_of_mem _ (hcol.perm.mem_iff.mpr (mem_append_left _ hx))
    obtain ⟨out, hout, hwritten⟩ := ih hcol.ready fun x hx => hgood x (hperm.mem_iff.mpr
      (mem_cons_of_mem _ (hcol.perm.mem_iff.mpr (mem_append_right _ hx))))
    have hitr := htaken _ mem_cons_self
    obtain ⟨u, hu, huwf, hrows, hschema⟩ := mergeItems_spec htaken (Record.wf_ofSchema hitr.wf.ordered)
    have hnext : next itrs = some (some (itr.cur.1, u, rest.2)) := by
      rw [next_of_some hpop]
      exact congrArg (Option.map _) hu
    -- the record has the columns of the first chunk, so it passes the check
    have hcols : u.cols ≠ [] := by
      obtain ⟨c, hc⟩ := exists_mem_of_ne_nil _ hitr.cols_ne
      have hf : c.1 ∈ u.schema := hschema c.1 (by
        rw [Record.schema_ofSchema]
        exact mem_map_of_mem hc)
      rintro hnil
      simp [Record.schema, hnil] at hf
    obtain ⟨hswf, hsasc, hstable⟩ := ColumnSortHelper.sort_spec huwf
    refine ⟨(itr.cur.1, ColumnSortHelper.sort u) :: out, ?_, .cons ⟨rfl, hswf, hsasc, ?_⟩ hwritten⟩
    · rw [MergeSelf.run]
      split
      · simp_all
      · simp_all
      · rename_i heq
        rw [hnext] at heq
        obtain ⟨rfl, rfl, rfl⟩ := by simpa using heq
        rw [if_neg hitr.sid_ne, huwf.checkRecord hcols, hout]
        rfl
    · have hempty : (Record.ofSchema itr.cur.2.schema : Record F V).rows = [] :=
        length_eq_zero_iff.mp (Record.length_rows _)
      rw [hstable, hrows, hempty, nil_append]

/-! ### The order of the heap -/

section Feeds

variable {α β : Type*}

theorem remaining_feeds (files : List (List α)) :
    remaining (feeds files) = files.zipIdx.flatMap fun p => p.1.map (p.2, ·) := by
  rw [remaining, feeds]
  induction files.zipIdx with
  | nil => rfl
  | cons p l ih =>
    obtain ⟨file, k⟩ := p
    cases file with
    | nil => simpa using ih
    | cons a rest =>
      simp only [filterMap_cons, flatMap_cons, ih]
      rfl

theorem mem_remaining_feeds {files : List (List α)} {k : ℕ} {a : α} :
    (k, a) ∈ remaining (feeds files) ↔ ∃ file, files[k]? = some file ∧ a ∈ file := by
  rw [remaining_feeds, mem_flatMap]
  constructor
  · rintro ⟨⟨file, k'⟩, hmem, ha⟩
    obtain ⟨a', ha', heq⟩ := mem_map.mp ha
    obtain ⟨rfl, rfl⟩ := Prod.mk.inj heq
    exact ⟨file, mem_zipIdx_iff_getElem?.mp hmem, ha'⟩
  · rintro ⟨file, hfile, ha⟩
    exact ⟨(file, k), mem_zipIdx_iff_getElem?.mpr hfile, mem_map_of_mem ha⟩

theorem feeds_map (g : α → β) (files : List (List α)) : feeds (files.map (map g)) = (feeds files).map (Feed.map g) := by
  rw [feeds, feeds, zipIdx_map, filterMap_map, map_filterMap]
  congr 1
  funext ⟨file, k⟩
  cases file <;> rfl

theorem ascending_of_mem_feeds {ι τ : Type*} [LT ι] {key : α → ι × τ} {files : List (List α)}
    (h : ∀ file ∈ files, (file.map fun a => (key a).1).Pairwise (· < ·)) :
    ∀ s ∈ feeds files, ((s.cur :: s.rest).map fun a => (key a).1).Pairwise (· < ·) := by
  intro s hs
  obtain ⟨⟨file, k⟩, hmem, heq⟩ := mem_filterMap.mp hs
  cases file with
  | nil => simp at heq
  | cons a rest =>
    obtain rfl := Option.some.inj heq
    exact h _ (mem_of_getElem? (mem_zipIdx_iff_getElem?.mp hmem))

end Feeds

/-- The items of all series in the order in which they leave the heap, from what the heap compares:
every file is given by the series and first times of its chunks. -/
def heapGroups (keys : List (List (ℕ × ℤ))) : List (ℕ × List (ℕ × ℕ × ℤ)) :=
  Feed.groups id (Heap.init (Feed.less id) (feeds keys))

/-- The positions of the files that hold series `s`, in the order in which their chunks leave the
heap. -/
def heapOrder (keys : List (List (ℕ × ℤ))) (s : ℕ) : List ℕ := (Feed.itemsOf s (heapGroups keys)).map Prod.fst

/-! ### The files merged -/

/-- Out-of-order files in ascending order: what their writers promise of the series and chunks in
them, and the number of rows of a segment. -/
structure SelfMergeInput (F V : Type*) [LinearOrder F] where
  limit : ℕ
  limit_pos : 0 < limit
  files : List (SeriesFile F V)
  files_ne : files ≠ []
  sids : ∀ file ∈ files, (file.map Prod.fst).Pairwise (· < ·)
  sid_ne : ∀ file ∈ files, ∀ p ∈ file, p.1 ≠ 0
  chunk_wf : ∀ file ∈ files, ∀ p ∈ file, p.2.WF
  cols_ne : ∀ file ∈ files, ∀ p ∈ file, p.2.cols ≠ []

/-- The rows of a series in a file. -/
def SeriesFile.table (s : ℕ) (file : SeriesFile F V) : Table ℤ F V := (file.lookup s).elim Table.empty Chunk.table

/-- The value a file holds for a series, a time and a field. -/
def SeriesFile.value (s : ℕ) (t : ℤ) (f : F) (file : SeriesFile F V) : Option V :=
  (file.lookup s).bind fun c => c.value f t

/-- The rows written for a series. -/
def rowsOf (out : List (ℕ × Record F V)) (s : ℕ) : List (ℤ × Row F V) := (out.lookup s).elim [] Record.rows

namespace SelfMergeInput

variable (i : SelfMergeInput F V)

/-- Series and first times of all chunks. -/
def keys : List (List (ℕ × ℤ)) := i.files.map (List.map fun p => (p.1, p.2.times.headD 0))

/-- A file of the input, by its position; no rows beyond the last one. -/
def file (k : ℕ) : SeriesFile F V := i.files.getD k []

variable {k : ℕ} {file : SeriesFile F V} (s : ℕ)

theorem cell_table (h : file ∈ i.files) (s : ℕ) (t : ℤ) (f : F) : Table.cell (file.table s) t f = file.value s t f := by
  unfold SeriesFile.table SeriesFile.value
  cases hl : file.lookup s with
  | none => rfl
  | some c => exact (i.chunk_wf file h _ (mem_of_lookup hl)).cell_table t f

theorem file_of_getElem? (h : i.files[k]? = some file) : i.file k = file := by
  rw [SelfMergeInput.file, getD_eq_getElem?_getD, h]
  rfl

/-- The items the iterators hand out are the chunks of the files. -/
theorem mem_remaining_createIterators {sid : ℕ} {rec : Record F V} :
    (k, sid, rec) ∈ remaining (createIterators i.files) ↔
      ∃ file c, i.files[k]? = some file ∧ (sid, c) ∈ file ∧ c.record = rec := by
  have hperm : (remaining (createIterators i.files)).Perm _ := (Heap.init_perm _ _).flatMap_right items
  rw [hperm.mem_iff, ← remaining, mem_remaining_feeds, getElem?_map]
  constructor
  · rintro ⟨recs, hrecs, hmem⟩
    obtain ⟨file, hfile, rfl⟩ := Option.map_eq_some_iff.mp hrecs
    obtain ⟨⟨sid', c⟩, hc, heq⟩ := mem_map.mp hmem
    cases heq
    exact ⟨file, c, hfile, hc, rfl⟩
  · rintro ⟨file, c, hfile, hc, rfl⟩
    exact ⟨_, congrArg _ hfile, mem_map_of_mem hc⟩

theorem goodItem {x : ℕ × ℕ × Record F V} (h : x ∈ remaining (createIterators i.files)) : GoodItem x := by
  obtain ⟨file, c, hget, hc, hrec⟩ := i.mem_remaining_createIterators.mp h
  have hfile := mem_of_getElem? hget
  have hwf := i.chunk_wf _ hfile _ hc
  refine ⟨i.sid_ne _ hfile _ hc, ?_, ?_, ?_, ?_⟩ <;> rw [← hrec]
  · exact hwf.record_wf
  · exact hwf.times_ne
  · simpa [Chunk.record] using i.cols_ne _ hfile _ hc
  · exact hwf.ascending

theorem createIterators_ready : Feed.Ready key (createIterators i.files) := by
  refine init_ready (ascending_of_mem_feeds ?_)
  intro recs hrecs
  obtain ⟨file, hfile, rfl⟩ := mem_map.mp hrecs
  rw [map_map]
  exact i.sids file hfile

/-- The heap of the code goes through the chunks as the heap of their keys does. -/
theorem heapGroups_keys : heapGroups i.keys = (Feed.groups key (createIterators i.files)).map fun p =>
      (p.1, p.2.map (Prod.map id key)) := by
  have hkeys : i.keys = (i.files.map (List.map fun p => (p.1, p.2.record))).map (List.map key) := by
    rw [map_map]
    refine map_congr_left fun file _ => ?_
    rw [Function.comp_apply, map_map]
    rfl
  rw [heapGroups, hkeys, feeds_map, Heap.init_map (less_map fun _ => rfl), groups_map fun _ => rfl]
  rfl

theorem heapOrder_keys : heapOrder i.keys s =
      (Feed.itemsOf s (Feed.groups key (createIterators i.files))).map Prod.fst := by
  rw [heapOrder, heapGroups_keys, itemsOf, lookup_map_snd, itemsOf]
  cases (groups key (createIterators i.files)).lookup s with
  | none => rfl
  | some items =>
    rw [Option.map_some, Option.getD_some, map_map]
    rfl

theorem itemsOf_perm : (itemsOf s (groups key (createIterators i.files))).Perm
    ((remaining (createIterators i.files)).filter fun x => x.2.1 = s) :=
  (groups_spec i.createIterators_ready).itemsOf_perm s

theorem mem_heapOrder_keys {s : ℕ} :
    k ∈ heapOrder i.keys s ↔ ∃ file, i.files[k]? = some file ∧ s ∈ file.map Prod.fst := by
  rw [heapOrder_keys, mem_map]
  simp only [(i.itemsOf_perm s).mem_iff, mem_filter, decide_eq_true_eq]
  constructor
  · rintro ⟨⟨k, sid, rec⟩, ⟨hx, rfl⟩, rfl⟩
    obtain ⟨file, c, hfile, hc, -⟩ := i.mem_remaining_createIterators.mp hx
    exact ⟨file, hfile, mem_map_of_mem hc⟩
  · rintro ⟨file, hfile, hs⟩
    obtain ⟨⟨sid, c⟩, hc, rfl⟩ := mem_map.mp hs
    exact ⟨(k, sid, c.record), ⟨i.mem_remaining_createIterators.mpr ⟨file, c, hfile, hc, rfl⟩, rfl⟩, rfl⟩

end SelfMergeInput

theorem lookup_written {gs : List (ℕ × List (ℕ × ℕ × Record F V))} {out : List (ℕ × Record F V)}
    (h : List.Forall₂ Written gs out) (s : ℕ) :
    toTable (rowsOf out s) = logTable ((itemsOf s gs).flatMap fun x => x.2.2.rows) := by
  induction h with
  | nil => rfl
  | @cons p q gs out hpq _ ih =>
    unfold rowsOf itemsOf
    rw [lookup_cons, lookup_cons, hpq.sid_eq]
    by_cases hs : s = p.1
    · rw [beq_iff_eq.mpr hs]
      exact hpq.table
    · rw [beq_false_of_ne hs]
      exact ih

/-- **What the fast mode writes**: every series once, in ascending order, each in time order, its
chunks laid over each other in the order in which they leave the heap. -/
theorem MergeSelf.merge_spec (i : SelfMergeInput F V) :
    ∃ out, merge i.files = some out ∧ (out.map Prod.fst).Pairwise (· < ·) ∧
      (∀ q ∈ out, q.2.WF ∧ q.2.times.Pairwise (· < ·)) ∧
      ∀ s, toTable (rowsOf out s) = Table.newest ((heapOrder i.keys s).map fun k => (i.file k).table s) := by
  have hready := i.createIterators_ready
  obtain ⟨out, hrun, hwritten⟩ := run_spec hready fun x hx => i.goodItem hx
  have hgroups := groups_spec hready
  have hsids : out.map Prod.fst = (groups key (createIterators i.files)).map Prod.fst :=
    map_eq_of_forall₂ hwritten fun p _ q hpq => hpq.sid_eq
  refine ⟨out, ?_, hsids ▸ hgroups.ascending, ?_, fun s => ?_⟩
  · rw [merge, if_neg (by simpa using i.files_ne), hrun]
  · intro q hq
    obtain ⟨p, -, hpq⟩ := exists_of_mem_right hwritten hq
    exact ⟨hpq.wf, hpq.ascending⟩
  · rw [lookup_written hwritten, flatMap_def, logTable_flatten, map_map, i.heapOrder_keys, map_map]
    congr 1
    refine map_congr_left fun x hx => ?_
    obtain ⟨hx, hs⟩ := mem_filter.mp ((i.itemsOf_perm s).mem_iff.mp hx)
    obtain ⟨file, c, hfile, hc, hrec⟩ := i.mem_remaining_createIterators.mp hx
    have hlookup : (i.file x.1).lookup s = some c := by
      rw [i.file_of_getElem? hfile, ← of_decide_eq_true hs]
      exact lookup_of_mem_of_nodup ((i.sids _ (mem_of_getElem? hfile)).imp fun h => h.ne) hc
    have hsorted : Sorted (before true) x.2.2.rows := Record.sorted_rows (i.goodItem hx).ascending
    rw [Function.comp_apply, Function.comp_apply, hsorted.logTable, SeriesFile.table, hlookup, ← hrec]
    rfl

end GeminiTS
