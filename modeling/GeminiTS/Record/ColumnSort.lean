import GeminiTS.Lib.StableSort
import GeminiTS.Record.Columns

/-!
# ColumnSort — sorting the rows of a record by time

`ColumnSortHelper.Sort` (`lib/record/column_sort.go`) brings rows appended from several records into
time order, column by column; of several rows of one time the later one is laid over the earlier one.
-/

namespace GeminiTS

open Lib List Record

variable {F V : Type*}

namespace ColumnSortHelper

/-- A time with the number of its row. -/
abbrev Entry := ℤ × ℕ

/-- `SortAux` after the stable sort. -/
def sortAux (times : List ℤ) : List Entry := stableSort Prod.fst times.zipIdx

/-- `InitSections`: a section goes on while the row numbers are adjacent and the times differ. A
section is kept as its entries. -/
def initSections (aux : List Entry) : List (List Entry) := aux.splitBy fun a b => !(b.2 ≠ a.2 + 1 || a.1 = b.1)

/-- Put a non-null value in the place of the last one of `dst`. -/
def replace (col dst : ColVal V) (idx : ℕ) : ColVal V :=
  if col.isNil idx then dst else ColVal.appendColVal dst.dropLast col idx (idx + 1)

/-- One section; `prev` is the time before it. -/
def sortSection (col : ColVal V) (prev : Option ℤ) (section_ : List Entry) (dst : ColVal V) : ColVal V :=
  match section_.head?, section_.getLast? with
  | some (time, rowStat), some (_, last) =>
    let rowEnd := last + 1
    if prev = some time then
      let dst := replace col dst rowStat
      if rowStat + 1 ≥ rowEnd then dst else dst.appendColVal col (rowStat + 1) rowEnd
    else if rowStat ≥ rowEnd then dst
    else dst.appendColVal col rowStat rowEnd
  | _, _ => dst

/-- One column. -/
def sortColumn (col : ColVal V) : Option ℤ → List (List Entry) → ColVal V → ColVal V
  | _, [], dst => dst
  | prev, section_ :: sections, dst =>
    sortColumn col ((section_.getLast?.map Prod.fst).or prev) sections (sortSection col prev section_ dst)

/-- Times that differ from the one before. -/
def distinctTimes : Option ℤ → List ℤ → List ℤ
  | _, [] => []
  | prev, t :: ts =>
    if prev = some t then distinctTimes prev ts else t :: distinctTimes (some t) ts

/-- The record in time order. -/
def sort (rec : Record F V) : Record F V :=
  if rec.rowNums = 0 then rec
  else
    let aux := sortAux rec.times
    let sections := initSections aux
    ⟨rec.cols.map fun p => (p.1, sortColumn p.2 none sections []), distinctTimes none (aux.map Prod.fst)⟩

/-- One entry at a time: what a section does to the column. -/
def entryStep (col : ColVal V) (st : Option ℤ × ColVal V) (e : Entry) : Option ℤ × ColVal V :=
  (some e.1, if st.1 = some e.1 then replace col st.2 e.2 else st.2 ++ [col[e.2]?.join])

/-- The last value of a time. -/
def lastValue (col : ColVal V) (entries : List Entry) (t : ℤ) : Option V :=
  entries.reverse.findSome? fun e => if e.1 = t then col[e.2]?.join else none

theorem lastValue_concat (col : ColVal V) (entries : List Entry) (e : Entry) (t : ℤ) :
    lastValue col (entries ++ [e]) t =
      if e.1 = t then col[e.2]?.join.or (lastValue col entries t) else lastValue col entries t := by
  rw [lastValue, reverse_append, reverse_singleton, singleton_append, findSome?_cons]
  by_cases h : e.1 = t
  · rw [if_pos h, if_pos h]
    cases col[e.2]?.join <;> rfl
  · rw [if_neg h, if_neg h]
    rfl

variable {col : ColVal V} {t : ℤ}

theorem lastValue_of_notMem {entries : List Entry} (h : t ∉ entries.map Prod.fst) : lastValue col entries t = none := by
  refine findSome?_eq_none_iff.mpr fun e he => if_neg ?_
  rintro rfl
  exact h (mem_map_of_mem (mem_reverse.mp he))

theorem lastValue_congr {es es' : List Entry} (h : es.filter (fun e => e.1 = t) = es'.filter fun e => e.1 = t) :
    lastValue col es t = lastValue col es' t := by
  have hfilter (es : List Entry) : lastValue col es t = lastValue col (es.filter fun e => e.1 = t) t := by
    rw [lastValue, lastValue, ← filter_reverse]
    induction es.reverse with
    | nil => rfl
    | cons e es ih =>
      by_cases he : e.1 = t
      · rw [filter_cons_of_pos (by simpa using he), findSome?_cons, findSome?_cons, ih]
      · rw [filter_cons_of_neg (by simpa using he), findSome?_cons, if_neg he, ih]
  rw [hfilter es, hfilter es', h]

/-- Adjacent rows with different times. -/
def Adjacent (a b : Entry) : Prop := b.2 = a.2 + 1 ∧ a.1 ≠ b.1

theorem adjacent_of_mem_initSections {aux s : List Entry} (h : s ∈ initSections aux) : s.IsChain Adjacent := by
  refine (isChain_of_mem_splitBy h).imp fun a b hab => ?_
  simpa [Adjacent] using hab

section Fold

variable {col : ColVal V}

variable {e : Entry} {rest : List Entry}

theorem extract_adjacent (h : (e :: rest).IsChain Adjacent) (hlen : ∀ x ∈ e :: rest, x.2 < col.length) :
    col.extract e.2 (e.2 + rest.length + 1) = (e :: rest).map (fun x => col[x.2]?.join) ∧
      ((e :: rest).getLast (by simp)).2 = e.2 + rest.length := by
  induction rest generalizing e with
  | nil => exact ⟨extract_succ (hlen e (by simp)), rfl⟩
  | cons e' rest ih =>
    rw [isChain_cons_cons] at h
    obtain ⟨⟨hrow, -⟩, h⟩ := h
    obtain ⟨hext, hlast⟩ := ih h fun x hx => hlen x (mem_cons_of_mem _ hx)
    rw [hrow] at hext hlast
    rw [length_cons, getLast_cons (by simp)]
    refine ⟨?_, by omega⟩
    have hcut := extract_append_extract col (a := e.2) (b := e.2 + 1)
      (c := e.2 + 1 + rest.length + 1) (by omega) (by omega)
    rw [hext, extract_succ (hlen e (by simp)), singleton_append] at hcut
    rw [map_cons, hcut]
    congr 1
    omega

theorem foldl_adjacent (h : (e :: rest).IsChain Adjacent) (dst : ColVal V) :
    rest.foldl (entryStep col) (some e.1, dst) =
      (some ((e :: rest).getLast (by simp)).1, dst ++ rest.map fun x => col[x.2]?.join) := by
  induction rest generalizing e dst with
  | nil => simp
  | cons e' rest ih =>
    rw [isChain_cons_cons] at h
    rw [foldl_cons, entryStep, if_neg (fun heq => h.1.2 (Option.some.inj heq)), ih h.2,
      map_cons, append_assoc, singleton_append, getLast_cons (cons_ne_nil _ _)]

theorem sortSection_eq {s : List Entry} (hne : s ≠ []) (h : s.IsChain Adjacent)
    (hlen : ∀ x ∈ s, x.2 < col.length) (prev : Option ℤ) (dst : ColVal V) :
    s.foldl (entryStep col) (prev, dst) = ((s.getLast?.map Prod.fst).or prev, sortSection col prev s dst) := by
  cases s with
  | nil => exact absurd rfl hne
  | cons e rest =>
    obtain ⟨hext, hlast⟩ := extract_adjacent h hlen
    have hget : (e :: rest).getLast? = some ((e :: rest).getLast (by simp)) := getLast?_eq_some_getLast _
    rw [foldl_cons, entryStep, foldl_adjacent h, sortSection, head?_cons, hget]
    refine Prod.ext rfl ?_
    simp only [hlast]
    by_cases hprev : prev = some e.1
    · rw [if_pos hprev, if_pos hprev]
      cases rest with
      | nil => simp
      | cons e' rest =>
        rw [isChain_cons_cons] at h
        obtain ⟨hext', -⟩ := extract_adjacent h.2 fun x hx => hlen x (mem_cons_of_mem _ hx)
        rw [if_neg (by simp), ← hext', h.1.1, length_cons]
        congr 2
        omega
    · rw [if_neg hprev, if_neg hprev, if_neg (by omega), ColVal.appendColVal, hext, map_cons,
        append_assoc, singleton_append]

theorem sortColumn_eq {sections : List (List Entry)} (hne : ∀ s ∈ sections, s ≠ [])
    (h : ∀ s ∈ sections, s.IsChain Adjacent) (hlen : ∀ s ∈ sections, ∀ x ∈ s, x.2 < col.length)
    (prev : Option ℤ) (dst : ColVal V) :
    sortColumn col prev sections dst = (sections.flatten.foldl (entryStep col) (prev, dst)).2 := by
  induction sections generalizing prev dst with
  | nil => rfl
  | cons s sections ih =>
    rw [flatten_cons, foldl_append, sortSection_eq (hne s (by simp)) (h s (by simp)) (hlen s (by simp))]
    exact ih (forall_mem_cons.mp hne).2 (forall_mem_cons.mp h).2 (forall_mem_cons.mp hlen).2 _ _

end Fold

section Times

theorem distinctTimes_concat (prev : Option ℤ) (ts : List ℤ) (t : ℤ) : distinctTimes prev (ts ++ [t]) =
      distinctTimes prev ts ++ if ts.getLast?.or prev = some t then [] else [t] := by
  induction ts generalizing prev with
  | nil =>
    rfl
  | cons u ts ih =>
    have hlast : ((u :: ts).getLast?.or prev) = ts.getLast?.or (some u) := by
      rw [getLast?_cons]
      cases ts.getLast? <;> rfl
    rw [cons_append, distinctTimes, distinctTimes, ih, ih]
    split_ifs with h <;> simp_all

theorem getLast?_distinctTimes (ts : List ℤ) : (distinctTimes none ts).getLast? = ts.getLast? := by
  induction ts using reverseRecOn with
  | nil => rfl
  | append_singleton ts t ih =>
    rw [distinctTimes_concat, Option.or_none, getLast?_append, getLast?_append]
    split_ifs with h
    · rw [ih, h]
      rfl
    · rfl

variable {ts : List ℤ}

theorem mem_distinctTimes {t : ℤ} : t ∈ distinctTimes none ts ↔ t ∈ ts := by
  induction ts using reverseRecOn with
  | nil => rfl
  | append_singleton ts u ih =>
    rw [distinctTimes_concat, Option.or_none, mem_append, mem_append, ih]
    split_ifs with h
    · refine ⟨fun h => .inl (h.resolve_right (by simp)), ?_⟩
      rintro (ht | ht)
      · exact .inl ht
      · rw [mem_singleton.mp ht]
        exact .inl (mem_of_getLast? h)
    · rfl

theorem getLast?_of_forall_le (h : ts.Pairwise (· ≤ ·)) {t : ℤ} (ht : t ∈ ts) (hle : ∀ u ∈ ts, u ≤ t) :
    ts.getLast? = some t := by
  rw [getLast?_eq_some_getLast (ne_nil_of_mem ht)]
  exact congrArg some (le_antisymm (hle _ (getLast_mem _)) (h.rel_getLast ht))

theorem pairwise_distinctTimes (h : ts.Pairwise (· ≤ ·)) : (distinctTimes none ts).Pairwise (· < ·) := by
  induction ts using reverseRecOn with
  | nil => exact .nil
  | append_singleton ts u ih =>
    rw [pairwise_append] at h
    rw [distinctTimes_concat, Option.or_none]
    split_ifs with hu
    · rw [append_nil]
      exact ih h.1
    · refine pairwise_append.mpr ⟨ih h.1, pairwise_singleton _ _, fun a ha b hb => ?_⟩
      rw [mem_singleton.mp hb]
      rw [mem_distinctTimes] at ha
      refine lt_of_le_of_ne (h.2.2 a ha u (by simp)) ?_
      rintro rfl
      exact hu (getLast?_of_forall_le h.1 ha fun t ht => h.2.2 t ht a (by simp))

end Times

section Spec

variable {col : ColVal V}

/-- The run over all entries: one value per time, the last non-null one. -/
theorem foldl_entryStep {es : List Entry} (hs : (es.map Prod.fst).Pairwise (· ≤ ·))
    (hlen : ∀ e ∈ es, e.2 < col.length) :
    es.foldl (entryStep col) (none, []) = ((es.map Prod.fst).getLast?,
        (distinctTimes none (es.map Prod.fst)).map (lastValue col es)) := by
  induction es using reverseRecOn with
  | nil => rfl
  | append_singleton es e ih =>
    have hs' := hs
    rw [map_append, map_singleton] at hs' ⊢
    rw [foldl_append, ih (pairwise_append.mp hs').1 fun x hx =>
      hlen x (mem_append_left _ hx), foldl_cons, entryStep,
      getLast?_append, distinctTimes_concat, Option.or_none]
    have hlt := pairwise_distinctTimes (pairwise_append.mp hs').1
    have hother : ∀ t, e.1 ≠ t → lastValue col (es ++ [e]) t = lastValue col es t := fun t ht => by
      rw [lastValue_concat, if_neg ht]
    refine Prod.ext rfl ?_
    by_cases hlast : (es.map Prod.fst).getLast? = some e.1
    · -- another row of the last time
      rw [if_pos hlast, if_pos hlast, append_nil]
      obtain ⟨ini, hini⟩ : ∃ ini, distinctTimes none (es.map Prod.fst) = ini ++ [e.1] :=
        getLast?_eq_some_iff.mp ((getLast?_distinctTimes _).trans hlast)
      rw [hini] at hlt ⊢
      have hmap : ini.map (lastValue col (es ++ [e])) = ini.map (lastValue col es) :=
        map_congr_left fun t ht => hother t ((pairwise_append.mp hlt).2.2 t ht e.1 (by simp)).ne'
      rw [map_append, map_append, map_singleton, map_singleton, hmap,
        lastValue_concat, if_pos rfl, replace, ColVal.isNil]
      have hcell := extract_succ (hlen e (by simp))
      cases hv : col[e.2]?.join with
      | none => rfl
      | some v =>
        rw [hv] at hcell
        rw [dropLast_concat, ColVal.appendColVal, hcell]
        rfl
    · -- the first row of a new time
      have hnew : e.1 ∉ es.map Prod.fst := by
        intro hmem
        refine hlast (getLast?_of_forall_le (pairwise_append.mp hs').1 hmem fun u hu => ?_)
        exact (pairwise_append.mp hs').2.2 u hu e.1 (by simp)
      rw [if_neg hlast, if_neg hlast, map_append, map_singleton, lastValue_concat,
        if_pos rfl, lastValue_of_notMem hnew, Option.or_none]
      refine congrArg (· ++ _) (map_congr_left fun t ht => (hother t ?_).symm)
      rintro rfl
      exact hnew (mem_distinctTimes.mp ht)

variable {times : List ℤ}

theorem row_lt_of_mem_sortAux {e : Entry} (h : e ∈ sortAux times) : e.2 < times.length := by
  rw [sortAux, (stableSort_perm _ _).mem_iff] at h
  simpa using (mem_zipIdx h).2.1

theorem pairwise_sortAux (times : List ℤ) : ((sortAux times).map Prod.fst).Pairwise (· ≤ ·) := by
  rw [pairwise_map]
  exact pairwise_stableSort _ _

theorem mem_times_sortAux {t : ℤ} : t ∈ (sortAux times).map Prod.fst ↔ t ∈ times := by
  rw [sortAux, ((stableSort_perm _ _).map Prod.fst).mem_iff, zipIdx_map_fst]

theorem sortColumn_sections (hlen : col.length = times.length) : sortColumn col none (initSections (sortAux times)) [] =
      (distinctTimes none ((sortAux times).map Prod.fst)).map (lastValue col times.zipIdx) := by
  have hflat : (initSections (sortAux times)).flatten = sortAux times := flatten_splitBy _ _
  have hne : ∀ s ∈ initSections (sortAux times), s ≠ [] := fun s hs =>
    ne_nil_of_mem_splitBy hs
  rw [sortColumn_eq hne (fun s hs => adjacent_of_mem_initSections hs) (fun s hs x hx => ?_), hflat,
    foldl_entryStep (pairwise_sortAux times)]
  · exact map_congr_left fun t _ => lastValue_congr (filter_stableSort _ _ t)
  · exact fun e he => (row_lt_of_mem_sortAux he).trans_eq hlen.symm
  · have hmem : x ∈ sortAux times := by
      rw [← hflat]
      exact mem_flatten.mpr ⟨s, hs, hx⟩
    exact (row_lt_of_mem_sortAux hmem).trans_eq hlen.symm

end Spec

section Record

variable {rec : Record F V}

theorem schema_sort (rec : Record F V) : (sort rec).schema = rec.schema := by
  unfold sort
  split_ifs
  · rfl
  · simp [schema]

theorem times_sort (h : rec.times ≠ []) : (sort rec).times = distinctTimes none ((sortAux rec.times).map Prod.fst) := by
  rw [sort, if_neg (by simpa using h)]

variable [LinearOrder F]

theorem column_sort (hr : rec.WF) (h : rec.times ≠ []) (f : F) : (sort rec).column f =
      (sort rec).times.map (lastValue (rec.column f) rec.times.zipIdx) := by
  have hcols : (sort rec).cols.lookup f = (rec.cols.lookup f).map fun c =>
      sortColumn c none (initSections (sortAux rec.times)) [] := by
    rw [sort, if_neg (by simpa using h)]
    exact lookup_map_snd (fun c => sortColumn c none (initSections (sortAux rec.times)) []) rec.cols f
  rw [column, hcols, column]
  cases hl : rec.cols.lookup f with
  | some c =>
    rw [Option.map_some, Option.getD_some, Option.getD_some,
      sortColumn_sections (hr.aligned _ (mem_of_lookup hl)), times_sort h]
  | none =>
    have hnull : ∀ t, lastValue (replicate rec.rowNums (none : Option V)) rec.times.zipIdx t = none := by
      intro t
      refine findSome?_eq_none_iff.mpr fun e _ => ?_
      simp only [getElem?_replicate]
      split_ifs <;> rfl
    refine (eq_replicate_iff.mpr ⟨by simp, fun v hv => ?_⟩).symm
    obtain ⟨t, -, rfl⟩ := mem_map.mp hv
    exact hnull t

theorem cell_logTable_rows (rec : Record F V) (t : ℤ) (f : F) :
    Table.cell (logTable rec.rows) t f = lastValue (rec.column f) rec.times.zipIdx t := by
  have hrows : rec.rows = rec.times.zipIdx.map fun e => (e.1, rec.row e.2) := by
    rw [rows, mapIdx_eq_zipIdx_map]
  rw [cell_logTable, hrows, ← map_reverse, findSome?_map]
  rfl

/-- **Sorting a record**: the result is in time order, has the same columns, and stands for the
rows read as a log. -/
theorem sort_spec (hr : rec.WF) : (sort rec).WF ∧ (sort rec).times.Pairwise (· < ·) ∧
      toTable (sort rec).rows = logTable rec.rows := by
  by_cases h : rec.times = []
  · have hsort : sort rec = rec := by rw [sort, if_pos (by simpa using h)]
    have hrows : rec.rows = [] := length_eq_zero_iff.mp (by rw [rec.length_rows, h]; rfl)
    rw [hsort, h, hrows]
    exact ⟨hr, .nil, rfl⟩
  have hlt : (sort rec).times.Pairwise (· < ·) := by
    rw [times_sort h]
    exact pairwise_distinctTimes (pairwise_sortAux _)
  have hmem : ∀ t, t ∈ (sort rec).times ↔ t ∈ rec.times := by
    intro t
    rw [times_sort h, mem_distinctTimes, mem_times_sortAux]
  have hord : (sort rec).schema.Pairwise (· < ·) := (schema_sort rec).symm ▸ hr.ordered
  have hwf : (sort rec).WF := .of_length_column hord fun f => by rw [column_sort hr h, length_map]
  refine ⟨hwf, hlt, Table.ext_cell (fun t => ?_) fun t f => ?_⟩
  · rw [toTable_rows_isSome, logTable_isSome, map_fst_rows, hmem]
  · have hasc : (sort rec).times.Pairwise (before true) := hlt
    rw [cell_toTable_rows hwf hasc, column_sort hr h, cell_logTable_rows]
    by_cases ht : t ∈ (sort rec).times
    · exact valueAt_map ht
    · rw [valueAt_of_notMem ht, lastValue_of_notMem]
      rwa [zipIdx_map_fst, ← hmem]

end Record

end ColumnSortHelper

end GeminiTS
