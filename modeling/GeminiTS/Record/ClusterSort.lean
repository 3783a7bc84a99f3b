import GeminiTS.Record.Columns

/-!
# ClusterSort — sorting a record for the column store

`SortForColumnStore` (`lib/record/record_sort.go`, `sort.go`) sorts the rows of a record by their times, truncated to
multiples of a duration, and then by keys. The truncated times become a column in front of the others.

* `SortData.matches_iff` — the column matches its rows exactly if it was in order before: it is not moved with them.
-/

namespace GeminiTS.ClusterSort

open Lib List Record

variable {F V K : Type*} [LinearOrder F] [LinearOrder K]

/-- `time.Duration.Truncate`, toward zero. -/
def truncate (t d : ℤ) : ℤ := if d ≤ 0 then t else t - t.tmod d

/-- What `Less` compares, item by item: the truncated time, and for each key the time or the padded value. -/
def items (tcDuration : ℤ) (keys : List (ℤ × Row F V → K)) (row : ℤ × Row F V) : ℤ ×ₗ List K :=
  toLex (truncate row.1 tcDuration, keys.map (· row))

/-- The rows have been sorted: row ids are swapped until no row is less than one before it. -/
structure SortData (F V K : Type*) [LinearOrder F] [LinearOrder K] where
  record : Record F V
  wf : record.WF
  keys : List (ℤ × Row F V → K)
  tcDuration : ℤ
  tcDuration_pos : 0 < tcDuration
  rowIds : List ℕ
  perm : rowIds.Perm (range record.rowNums)
  sorted : rowIds.Pairwise fun i j => ∀ a, record.rows[i]? = some a → ∀ b, record.rows[j]? = some b →
    ¬ items tcDuration keys b < items tcDuration keys a

/-- The rows from the first to the last id of a run. -/
def appendForColumnStore (rec aux : Record F V) (run : List ℕ) : Record F V :=
  match run.head?, run.getLast? with
  | some first, some last => aux.appendRec rec first (last + 1)
  | _, _ => aux

namespace SortData

variable (s : SortData F V K)

/-- `Times`; `Swap` leaves them as they are. -/
def times : List ℤ := s.record.times.map (truncate · s.tcDuration)

/-- The column of truncated times, and the columns of the record, which are filled run by run. -/
def sortForColumnStore : List ℤ × Record F V :=
  (s.times, (s.rowIds.splitBy fun a b => b = a + 1).foldl (appendForColumnStore s.record) (ofSchema s.record.schema))

/-- The rows are those of the record, in order, each with its truncated time. -/
structure Matches : Prop where
  clustered : s.sortForColumnStore.1 = s.sortForColumnStore.2.times.map (truncate · s.tcDuration)
  rows : s.sortForColumnStore.2.rows.Perm s.record.rows
  ordered : (zipWith (fun t row => toLex (t, s.keys.map (· row))) s.sortForColumnStore.1
    s.sortForColumnStore.2.rows).Pairwise (· ≤ ·)

end SortData

theorem extract_run {α : Type*} (l : List α) {i : ℕ} {rest : List ℕ} (h : (i :: rest).IsChain fun a b => b = a + 1) :
    ∃ last, (i :: rest).getLast? = some last ∧ i ≤ last ∧ l.extract i (last + 1) = (i :: rest).filterMap (l[·]?) := by
  have hone (i : ℕ) : l.extract i (i + 1) = [i].filterMap (l[·]?) := by
    rw [extract_eq_take_drop, Nat.add_sub_cancel_left, take_one, head?_drop]
    cases h : l[i]? <;> simp [h]
  induction rest generalizing i with
  | nil => exact ⟨i, rfl, le_rfl, hone i⟩
  | cons j rest ih =>
    obtain ⟨rfl, hrest⟩ := isChain_cons_cons.mp h
    obtain ⟨last, hlast, hle, hext⟩ := ih hrest
    refine ⟨last, hlast, by omega, ?_⟩
    rw [← extract_append_extract l (Nat.le_succ i) (Nat.le_succ_of_le hle), hone, hext, ← filterMap_append]
    rfl

theorem foldl_appendForColumnStore {rec : Record F V} (hrec : rec.WF) {runs : List (List ℕ)}
    (hne : ∀ run ∈ runs, run ≠ []) (hruns : ∀ run ∈ runs, run.IsChain fun a b => b = a + 1)
    (hlt : ∀ run ∈ runs, ∀ k ∈ run, k < rec.times.length) {aux : Record F V} (haux : aux.WF)
    (hschema : aux.schema = rec.schema) :
    (runs.foldl (appendForColumnStore rec) aux).rows = aux.rows ++ runs.flatten.filterMap (rec.rows[·]?) := by
  induction runs generalizing aux with
  | nil => simp
  | cons run runs ih =>
    simp only [forall_mem_cons] at hne hruns hlt
    obtain ⟨i, rest, rfl⟩ := exists_cons_of_ne_nil hne.1
    obtain ⟨last, hlast, hle, hext⟩ := extract_run rec.rows hruns.1
    have hstop : last + 1 ≤ rec.times.length := hlt.1 last (mem_of_getLast? hlast)
    have hsub : ∀ f ∈ rec.schema, f ∈ aux.schema := fun f hf => hschema ▸ hf
    rw [foldl_cons, appendForColumnStore, head?_cons, hlast]
    dsimp only
    rw [ih hne.2 hruns.2 hlt.2 (haux.appendRec hrec hsub (by omega) hstop) ((schema_appendRec ..).trans hschema),
      rows_appendRec haux hrec hsub (by omega) hstop, hext, flatten_cons, filterMap_append, append_assoc]

namespace SortData

variable (s : SortData F V K)

theorem rows_sortForColumnStore : s.sortForColumnStore.2.rows = s.rowIds.filterMap (s.record.rows[·]?) := by
  have hflat := flatten_splitBy (fun a b => decide (b = a + 1)) s.rowIds
  refine (foldl_appendForColumnStore s.wf (fun run hrun => ne_nil_of_mem_splitBy hrun) (fun run hrun => ?_)
    (fun run hrun k hk => ?_) (wf_ofSchema s.wf.ordered) (schema_ofSchema s.record.schema)).trans ?_
  · exact (isChain_of_mem_splitBy hrun).imp fun a b h => of_decide_eq_true h
  · have hmem : k ∈ s.rowIds := hflat ▸ mem_flatten.mpr ⟨run, hrun, hk⟩
    exact mem_range.mp (s.perm.mem_iff.mp hmem)
  · rw [hflat]
    rfl

/-- **The truncated times match their rows exactly if they were in order before the rows were sorted.** -/
theorem matches_iff (s : SortData F V K) : s.Matches ↔ s.times.Pairwise (· ≤ ·) := by
  obtain ⟨rows, hrows⟩ : ∃ rows, s.sortForColumnStore.2.rows = rows := ⟨_, rfl⟩
  have htimes : s.sortForColumnStore.2.times = rows.map Prod.fst := by rw [← hrows, map_fst_rows]
  have hperm : rows.Perm s.record.rows := by
    have hall : (range s.record.rowNums).map (s.record.rows[·]?) = s.record.rows.map some :=
      ext_getElem? fun k => by by_cases hk : k < s.record.times.length <;> simp [hk]
    have h := ((s.perm.map (s.record.rows[·]?)).trans (.of_eq hall)).filterMap id
    rw [filterMap_map, filterMap_map] at h
    simpa [← hrows, rows_sortForColumnStore, Function.comp_def] using h
  have hkeys : rows.Pairwise fun a b => items s.tcDuration s.keys a ≤ items s.tcDuration s.keys b := by
    rw [← hrows, rows_sortForColumnStore, pairwise_filterMap]
    exact s.sorted.imp fun h a ha b hb => not_lt.mp (h a ha b hb)
  have hsorted : ((rows.map Prod.fst).map (truncate · s.tcDuration)).Pairwise (· ≤ ·) := by
    rw [pairwise_map, pairwise_map]
    exact hkeys.imp fun h => Prod.Lex.monotone_fst _ _ h
  have hcluster : s.times.Pairwise (· ≤ ·) ↔ s.times = (rows.map Prod.fst).map (truncate · s.tcDuration) := by
    refine ⟨fun h => Perm.eq_of_pairwise (fun _ _ _ _ => le_antisymm) h hsorted ?_, fun h => h ▸ hsorted⟩
    rw [times, ← map_fst_rows]
    exact ((hperm.map _).map _).symm
  rw [hcluster]
  refine ⟨fun h => htimes ▸ h.clustered, fun h => ⟨htimes ▸ h, hrows ▸ hperm, ?_⟩⟩
  rw [hrows, show s.sortForColumnStore.1 = _ from h, map_map, zipWith_map_left, zipWith_self, pairwise_map]
  exact hkeys

end SortData

/-- Two rows that change places. -/
def descending : SortData ℕ ℤ ℤ where
  record := ⟨[], [20, 5]⟩
  wf := ⟨by decide, by decide⟩
  keys := []
  tcDuration := 20
  tcDuration_pos := by decide
  rowIds := [1, 0]
  perm := by decide
  sorted := by decide

/-- The row of time 5 comes first, and the column has 20 for it. -/
theorem descending_mismatch : descending.sortForColumnStore.1 = [20, 0] ∧
    descending.sortForColumnStore.2.times = [5, 20] ∧ ¬ descending.Matches :=
  ⟨rfl, rfl, fun h => absurd h.clustered (by decide)⟩

end GeminiTS.ClusterSort
