import GeminiTS.Lib.Machine
import GeminiTS.Mutable.FlushChunks

/-!
# FlushRun — the ordered files of a series under flushing, freeing and reloading

A store takes flushes, row counts of written rows, attempts to free the sequencer and reloads of it
(`FreeSequencer`, `ReloadSequencer`, `loadIdTimes` in `engine/immutable/compact.go`, `idTimesLoader`
in `mms_loader.go`). A reload reads the files one by one, in any order, and other events happen in
between; it may fail and then leaves the tables freed.

* `FlushRun.ordered_rows_ascend` — in every run the ordered rows of a series ascend from file to file,
  and every flush writes exactly its rows.
-/

namespace GeminiTS

open Lib List

variable {N F V : Type*}

/-- A running reload: the files not read yet, and whether one could not be read. -/
structure IdTimesLoader (N F V : Type*) where
  pending : List (TsspFile N F V)
  failed : Bool
  /-- The sequencer is referenced (there are ordered files). -/
  referenced : Bool

/-- Give up the reference. -/
def IdTimesLoader.release (l : IdTimesLoader N F V) (s : Sequencer N) : Sequencer N :=
  if l.referenced then s.unRef else s

/-- The store with its reload, if one is running. -/
structure FlushStore (N F V : Type*) extends TableStore N F V where
  loader : Option (IdTimesLoader N F V)

/-- What happens to a store. -/
inductive FlushEvent (N F V : Type*)
  | flush (name : N) (chunks : List (SeriesRecord F V))
  | addRowCounts (name : N) (sid : ℕ) (rowCounts : ℤ)
  | freeSequencer (fullyCompacted : Bool)
  | startReload
  | loadFile (i : ℕ) (ok : Bool)
  | endReload

namespace FlushStore

/-- An empty store. -/
def new : FlushStore N F V := ⟨⟨[], [], Sequencer.new⟩, none⟩

section Step

variable [LinearOrder F] [DecidableEq N] (conf : BuilderConf F V)

/-- `ReloadSequencer`, up to the files being read. -/
def startReload (st : FlushStore N F V) : FlushStore N F V :=
  match st.seq.setToInLoading with
  | none => st
  | some s =>
    if st.order.isEmpty then { st with seq := s, loader := some ⟨[], false, false⟩ }
    else { st with seq := s.addRef, loader := some ⟨st.order ++ st.outOfOrder, false, true⟩ }

/-- `loadFromTSSPFile` for one of the files; it may not be readable. -/
def loadFile (i : ℕ) (ok : Bool) (st : FlushStore N F V) : FlushStore N F V :=
  match st.loader with
  | none => st
  | some l =>
    match l.pending[i]? with
    | none => st
    | some f =>
      if ok then
        { st with
          seq := st.seq.batchUpdateCheckTime conf.unorderedOnly f.name (MsBuilder.pairs f.chunks) true
          loader := some { l with pending := l.pending.eraseIdx i } }
      else { st with loader := some { l with failed := true } }

/-- The end of `reloadSequencer`: all files are read or reading has failed. -/
def endReload (st : FlushStore N F V) : FlushStore N F V :=
  match st.loader with
  | none => st
  | some l =>
    if l.failed then
      { st with seq := (l.release st.seq).resetMmsIdTime.setStat true false, loader := none }
    else if l.pending.isEmpty then
      { st with seq := (l.release st.seq).setStat false false, loader := none }
    else st

/-- What an event does; only a flush could fail. -/
def step (st : FlushStore N F V) : FlushEvent N F V → Option (FlushStore N F V)
  | .flush name chunks =>
    (flushChunks conf name chunks st.toTableStore).map fun t => { st with toTableStore := t }
  | .addRowCounts name sid rowCounts => some { st with seq := st.seq.addRowCounts name sid rowCounts }
  | .freeSequencer fullyCompacted => some { st with seq := if fullyCompacted then st.seq.free else st.seq }
  | .startReload => some st.startReload
  | .loadFile i ok => some (st.loadFile conf i ok)
  | .endReload => some st.endReload

end Step

end FlushStore

/-- The chunks of a measurement in a list of files. -/
def chunksOf [DecidableEq N] (name : N) (files : List (TsspFile N F V)) : List (SeriesRecord F V) :=
  (files.filter fun f => f.name = name).flatMap TsspFile.chunks

/-- The times of a series in the files of a measurement, file after file. -/
def timesOf [DecidableEq N] [DecidableEq F] (files : List (TsspFile N F V)) (name : N) (sid : ℕ) :
    List ℤ := (seriesRows (chunksOf name files) sid).map Prod.fst

section TimesOf

variable [DecidableEq N] [DecidableEq F]

theorem timesOf_append (l1 l2 : List (TsspFile N F V)) (name : N) (sid : ℕ) :
    timesOf (l1 ++ l2) name sid = timesOf l1 name sid ++ timesOf l2 name sid := by
  rw [timesOf, chunksOf, filter_append, flatMap_append, seriesRows_append, map_append]
  rfl

omit [DecidableEq F] in
theorem chunksOf_map_mk (name : N) (files : List (List (SeriesRecord F V))) (name' : N) :
    chunksOf name' (files.map (TsspFile.mk name)) = if name = name' then files.flatten else [] := by
  unfold chunksOf
  split_ifs with h
  · rw [filter_eq_self.mpr (by simp [h]), flatMap_map]
    exact flatMap_id'
  · rw [filter_eq_nil_iff.mpr (by simp [h]), flatMap_nil]

theorem exists_of_mem_timesOf {files : List (TsspFile N F V)} {name : N} {sid : ℕ} {t : ℤ}
    (h : t ∈ timesOf files name sid) : ∃ f ∈ files, f.name = name ∧ ∃ c ∈ f.chunks, c.1 = sid ∧ t ∈ c.2.times := by
  rw [timesOf, mem_seriesRows] at h
  simp only [chunksOf, mem_flatMap, mem_filter, decide_eq_true_eq] at h
  obtain ⟨c, ⟨f, ⟨hf, hn⟩, hc⟩, hs, ht⟩ := h
  exact ⟨f, hf, hn, c, hc, hs, ht⟩

end TimesOf

namespace FlushStore

variable [LinearOrder F] [DecidableEq N] {conf : BuilderConf F V}

/-- What the sequencer knows of the ordered files. A reload runs only while the tables are freed, and
reads files of the store. -/
def Known (st : FlushStore N F V) : Prop :=
  match st.loader with
  | none => st.seq.isFree = false → ∀ f ∈ st.order, st.seq.Covers f.name f.chunks
  | some l => st.seq.isFree = true ∧ l.pending ⊆ st.order ++ st.outOfOrder ∧
      (l.failed = false → ∀ f ∈ st.order, f ∈ l.pending ∨ st.seq.Covers f.name f.chunks)

/-- What holds of a store at any time. -/
structure Inv (st : FlushStore N F V) : Prop where
  stored : ∀ f ∈ st.order ++ st.outOfOrder, ∀ c ∈ f.chunks, c.2.Stored
  ascending : ∀ name sid, (timesOf st.order name sid).Pairwise (· < ·)
  known : st.Known

variable {st : FlushStore N F V}

theorem inv_new : (new : FlushStore N F V).Inv where
  stored _ hf := absurd hf not_mem_nil
  ascending _ _ := .nil
  known _ _ hf := absurd hf not_mem_nil

omit [LinearOrder F] [DecidableEq N] in
theorem Known.covers (h : st.Known) (hfree : st.seq.isFree = false) :
    ∀ f ∈ st.order, st.seq.Covers f.name f.chunks := by
  unfold Known at h
  cases hl : st.loader with
  | none =>
    rw [hl] at h
    exact h hfree
  | some l =>
    rw [hl] at h
    cases h.1.symm.trans hfree

omit [LinearOrder F] [DecidableEq N] in
/-- A sequencer that is ahead, and knows the files that are added. -/
theorem Known.mono (h : st.Known) {st' : FlushStore N F V} (hloader : st'.loader = st.loader)
    (hext : st.seq.Extends st'.seq) (hfiles : st.order ++ st.outOfOrder ⊆ st'.order ++ st'.outOfOrder)
    (hnew : ∀ f ∈ st'.order, f ∈ st.order ∨ st'.seq.Covers f.name f.chunks) : st'.Known := by
  unfold Known at h ⊢
  rw [hloader]
  cases hl : st.loader with
  | none =>
    rw [hl] at h
    intro hfree f hf
    rcases hnew f hf with hf | hc
    · exact (h (hext.isFree.symm.trans hfree) f hf).mono hext
    · exact hc
  | some l =>
    rw [hl] at h
    refine ⟨hext.isFree.trans h.1, fun f hf => hfiles (h.2.1 hf), fun hfail f hf => ?_⟩
    rcases hnew f hf with hf | hc
    · exact (h.2.2 hfail f hf).imp_right fun hc => hc.mono hext
    · exact .inr hc

variable (h : st.Inv)

include h

theorem Inv.lt_of_flushTime_lt (name : N) {s : Sequencer N} (hs : st.seq.Extends s)
    {sid : ℕ} {t : ℤ} (hmax : t ≤ maxInt64)
    (ht : flushTime name (st.order.any fun f => f.name = name) (st.seq.getMmsIdTime name).isSome s sid <
      t) : ∀ u ∈ timesOf st.order name sid, u < t := by
  intro u hu
  obtain ⟨f, hf, hname, c, hc, hsid, hu⟩ := exists_of_mem_timesOf hu
  have hany : (st.order.any fun f => f.name = name) = true := any_eq_true.mpr ⟨f, hf, by simpa using hname⟩
  rw [flushTime, if_pos hany] at ht
  by_cases hlive : (st.seq.getMmsIdTime name).isSome = true
  · rw [if_pos hlive] at ht
    have hnotfree : st.seq.isFree = false := by
      unfold Sequencer.getMmsIdTime at hlive
      split_ifs at hlive with hb
      · exact absurd hlive Bool.false_ne_true
      · simp only [Bool.or_eq_true, not_or, Bool.not_eq_true] at hb
        exact hb.1
    have hcov := h.known.covers hnotfree f hf c hc u hu
    rw [hname, hsid] at hcov
    exact (hcov.trans (hs.le name sid)).trans_lt ht
  · rw [if_neg hlive] at ht
    omega

/-- **A flush keeps the invariant.** -/
theorem Inv.flush (hu : conf.unorderedOnly = false) (name : N)
    {chunks : List (SeriesRecord F V)} (hc : Flushable chunks) :
    ∃ t newO newU, flushChunks conf name chunks st.toTableStore = some t ∧
      FlushedTo name chunks (fun sid t => ∀ u ∈ timesOf st.order name sid, u < t) st.toTableStore t newO newU ∧
      ({ st with toTableStore := t } : FlushStore N F V).Inv := by
  obtain ⟨t, newO, newU, heq, hto⟩ := flushChunks_spec name hu hc st.toTableStore
    (fun s hs sid t hmax ht => h.lt_of_flushTime_lt name hs hmax ht)
  refine ⟨t, newO, newU, heq, hto, ?_, ?_, h.known.mono rfl hto.ext ?_ fun f hf => ?_⟩
  · intro f hf c hc
    have hnew (hf : f ∈ (newO ++ newU).map (TsspFile.mk name)) : c.2.Stored := by
      obtain ⟨file, hfile, rfl⟩ := mem_map.mp hf
      refine hto.stored c ?_
      rw [← flatten_append]
      exact mem_flatten_of_mem hfile hc
    simp only [hto.order, hto.outOfOrder, mem_append] at hf
    rcases hf with (hf | hf) | (hf | hf)
    · exact h.stored f (mem_append_left _ hf) c hc
    · exact hnew (map_append ▸ mem_append_left _ hf)
    · exact h.stored f (mem_append_right _ hf) c hc
    · exact hnew (map_append ▸ mem_append_right _ hf)
  · intro name' sid
    simp only [hto.order]
    rw [timesOf_append, pairwise_append, timesOf, timesOf, chunksOf_map_mk]
    split_ifs with hn
    · subst hn
      refine ⟨h.ascending name sid, ?_, fun u hu t ht => hto.later sid t ht u hu⟩
      refine (hc.sorted_seriesRows sid).sublist ?_
      rw [← hto.rows, map_append]
      exact sublist_append_right _ _
    · exact ⟨h.ascending name' sid, .nil, fun _ _ _ ht => absurd ht not_mem_nil⟩
  · rw [hto.order, hto.outOfOrder]
    exact append_subset.mpr ⟨fun f hf => by simp [hf], fun f hf => by simp [hf]⟩
  · rcases mem_append.mp (hto.order ▸ hf) with hf | hf
    · exact .inl hf
    · obtain ⟨file, hfile, rfl⟩ := mem_map.mp hf
      exact .inr (hto.covers file hfile)

theorem Inv.freeSequencer : ({ st with seq := st.seq.free } : FlushStore N F V).Inv := by
  refine ⟨h.stored, h.ascending, ?_⟩
  have hknown := h.known
  unfold Sequencer.free Known at *
  split_ifs with hfree href
  · exact hknown
  · exact hknown
  · -- a reload would have left the tables marked as freed
    cases hl : st.loader with
    | none => exact fun hf => absurd hf (by simp)
    | some l =>
      rw [hl] at hknown
      exact absurd hknown.1 hfree

theorem Inv.startReload : st.startReload.Inv := by
  unfold FlushStore.startReload Sequencer.setToInLoading
  by_cases hset : (st.seq.isFree && !st.seq.isLoading) = true
  · rw [if_pos hset]
    obtain ⟨hfree, -⟩ := Bool.and_eq_true_iff.mp hset
    by_cases hempty : st.order.isEmpty = true
    · simp only [hempty]
      refine ⟨h.stored, h.ascending, hfree, nil_subset _, fun _ f hf => ?_⟩
      exact absurd (isEmpty_iff.mp hempty ▸ hf) not_mem_nil
    · simp only [hempty]
      exact ⟨h.stored, h.ascending, hfree, Subset.refl _, fun _ f hf => .inl (mem_append_left _ hf)⟩
  · rw [if_neg hset]
    exact h

theorem Inv.loadFile (hu : conf.unorderedOnly = false) (i : ℕ) (ok : Bool) : (st.loadFile conf i ok).Inv := by
  unfold FlushStore.loadFile
  have hknown := h.known
  unfold Known at hknown
  cases hl : st.loader with
  | none => exact h
  | some l =>
    rw [hl] at hknown
    obtain ⟨hfree, hsub, hloaded⟩ := hknown
    cases hf : l.pending[i]? with
    | none => simpa only [hf] using h
    | some f =>
      simp only [hf]
      split_ifs with hok
      · rw [hu]
        have hs := st.seq.extends_batchUpdateCheckTime f.name (MsBuilder.pairs f.chunks) true
        have hcov := st.seq.covers_batchUpdateCheckTime f.name (h.stored f (hsub (mem_of_getElem? hf))) true
        refine ⟨h.stored, h.ascending, hs.isFree.trans hfree, fun g hg => hsub (mem_of_mem_eraseIdx hg),
          fun hfail g hg => ?_⟩
        rcases hloaded hfail g hg with hg | hg
        · -- the file read is covered now, the others are still to be read
          obtain ⟨j, hj⟩ := getElem?_of_mem hg
          by_cases hij : j = i
          · subst hij
            cases hf.symm.trans hj
            exact .inr hcov
          · exact .inl (mem_eraseIdx_iff_getElem?.mpr ⟨j, hij, hj⟩)
        · exact .inr (hg.mono hs)
      · exact ⟨h.stored, h.ascending, hfree, hsub, fun hfail => absurd hfail (by simp)⟩

theorem Inv.endReload : st.endReload.Inv := by
  unfold FlushStore.endReload
  have hknown := h.known
  unfold Known at hknown
  cases hl : st.loader with
  | none => exact h
  | some l =>
    rw [hl] at hknown
    have hlast : ∀ name id, (l.release st.seq).lastFlushTime name id = st.seq.lastFlushTime name id := by
      intro name id
      unfold IdTimesLoader.release
      split_ifs <;> rfl
    by_cases hfail : l.failed = true
    · simp only [hfail]
      exact ⟨h.stored, h.ascending, fun hf => absurd hf (by simp [Sequencer.setStat])⟩
    · simp only [hfail, Bool.false_eq_true, if_false]
      split_ifs with hdone
      · refine ⟨h.stored, h.ascending, fun _ f hf c hc t ht => ?_⟩
        rcases hknown.2.2 (by simpa using hfail) f hf with hp | hcov
        · rw [isEmpty_iff.mp hdone] at hp
          exact absurd hp not_mem_nil
        · exact (hcov c hc t ht).trans_eq (hlast f.name c.1).symm
      · exact h

/-- **Every event keeps the invariant**, and none fails. -/
theorem Inv.step (hu : conf.unorderedOnly = false) (e : FlushEvent N F V)
    (he : ∀ name chunks, e = .flush name chunks → Flushable chunks) :
    ∃ st', step conf st e = some st' ∧ st'.Inv := by
  cases e with
  | flush name chunks =>
    obtain ⟨t, -, -, heq, -, hinv⟩ := h.flush hu name (he name chunks rfl)
    exact ⟨_, by rw [FlushStore.step, heq]; rfl, hinv⟩
  | addRowCounts name sid rowCounts =>
    refine ⟨_, rfl, h.stored, h.ascending, h.known.mono rfl ⟨fun name' id => ?_, rfl⟩ (Subset.refl _)
      fun f hf => .inl hf⟩
    exact (st.seq.lastFlushTime_addRowCounts name sid rowCounts name' id).ge
  | freeSequencer fullyCompacted =>
    refine ⟨_, rfl, ?_⟩
    cases fullyCompacted with
    | true => exact h.freeSequencer
    | false => exact h
  | startReload => exact ⟨_, rfl, h.startReload⟩
  | loadFile i ok => exact ⟨_, rfl, h.loadFile hu i ok⟩
  | endReload => exact ⟨_, rfl, h.endReload⟩

end FlushStore

/-- A run of a store: any events, with out-of-order storage only (`UnorderedOnly`) off. -/
structure FlushRun (N F V : Type*) [LinearOrder F] where
  conf : BuilderConf F V
  events : List (FlushEvent N F V)
  ordered : conf.unorderedOnly = false
  flushable : ∀ name chunks, .flush name chunks ∈ events → Flushable chunks

namespace FlushRun

variable [LinearOrder F] [DecidableEq N] (r : FlushRun N F V)

/-- The store after the first `n` events. -/
def state (n : ℕ) : Option (FlushStore N F V) := run (FlushStore.step r.conf) FlushStore.new (r.events.take n)

theorem exists_state (n : ℕ) : ∃ st, r.state n = some st ∧ st.Inv := by
  refine run_invariant (fun st e he hinv => ?_) FlushStore.inv_new
  exact hinv.step r.ordered e fun name chunks heq =>
    r.flushable name chunks (heq ▸ mem_of_mem_take he)

/-- **The ordered rows of a series ascend from file to file.** At every point of a run the store is
there and the ordered rows of each series ascend strictly, file after file; a flush that comes next
appends files, the rows of its ordered files are later than all ordered rows of the series, and the
rows of its two kinds of files are the rows it was given. -/
theorem ordered_rows_ascend (n : ℕ) : ∃ st, r.state n = some st ∧
      (∀ name sid, (timesOf st.order name sid).Pairwise (· < ·)) ∧
      ∀ name chunks, r.events[n]? = some (.flush name chunks) →
        ∃ (st' : FlushStore N F V) (newO newU : List (List (SeriesRecord F V))), r.state (n + 1) = some st' ∧
          st'.order = st.order ++ newO.map (TsspFile.mk name) ∧
          st'.outOfOrder = st.outOfOrder ++ newU.map (TsspFile.mk name) ∧
          (∀ sid, ∀ t ∈ timesOf st.order name sid, ∀ u ∈ (seriesRows newO.flatten sid).map Prod.fst, t < u) ∧
          ∀ sid, seriesRows newU.flatten sid ++ seriesRows newO.flatten sid = seriesRows chunks sid := by
  obtain ⟨st, hst, hinv⟩ := r.exists_state n
  refine ⟨st, hst, hinv.ascending, fun name chunks hev => ?_⟩
  obtain ⟨t, newO, newU, heq, hto, -⟩ := hinv.flush r.ordered name (r.flushable name chunks (mem_of_getElem? hev))
  refine ⟨{ st with toTableStore := t }, newO, newU, ?_, hto.order, hto.outOfOrder,
    fun sid t ht u hu => hto.later sid u hu t ht, hto.rows⟩
  rw [state, run_take_succ _ _ hev, ← state, hst, Option.bind_some, FlushStore.step, heq]
  rfl

/-- Two rows from time `t` on. -/
def twoRows (t : ℤ) : Record ℕ ℕ := ⟨[(0, [some 1, some 2])], [t, t + 1]⟩

theorem flushable_twoRows {t : ℤ} (ht : t + 1 ≤ maxInt64) : Flushable [(1, twoRows t)] where
  ids := pairwise_singleton _ _
  stored := by
    rintro c hc
    rw [mem_singleton.mp hc]
    refine ⟨⟨by simp [twoRows], pairwise_singleton _ _⟩, by simp [twoRows], cons_ne_nil _ _, fun p hp => ⟨0, ?_⟩⟩
    simp only [Record.rows, twoRows, mapIdx_cons, mapIdx_nil, mem_cons, not_mem_nil, or_false] at hp
    rcases hp with rfl | rfl <;> exact Option.some_ne_none _
  bounded := by
    simp only [forall_eq, twoRows, mem_cons, not_mem_nil, or_false, forall_eq_or_imp]
    omega

/-- Each row is a file. The rows 1 and 2 are written, the sequencer is freed and loaded again, and the rows 2 and 3 are
written. -/
def reloaded : FlushRun Unit ℕ ℕ where
  conf := ⟨1, fun chunks => 1 < chunks.length, false, one_pos⟩
  events := [.flush () [(1, twoRows 1)], .freeSequencer true, .startReload, .loadFile 1 true, .loadFile 0 true,
    .endReload, .flush () [(1, twoRows 2)]]
  ordered := rfl
  flushable name chunks h := by
    simp only [mem_cons, FlushEvent.flush.injEq, reduceCtorEq, not_mem_nil, or_false, false_or] at h
    rcases h with ⟨-, rfl⟩ | ⟨-, rfl⟩ <;> exact flushable_twoRows (by decide)

theorem reloaded_ascends : (reloaded.state 7).map (fun st => (timesOf st.order () 1, timesOf st.outOfOrder () 1)) =
      some ([1, 2, 3], [2]) ∧
    ∃ st, reloaded.state 7 = some st ∧ ∀ name sid, (timesOf st.order name sid).Pairwise (· < ·) := by
  obtain ⟨st, hst, hascend, -⟩ := ordered_rows_ascend reloaded 7
  exact ⟨by decide +kernel, st, hst, hascend⟩

end FlushRun

end GeminiTS
