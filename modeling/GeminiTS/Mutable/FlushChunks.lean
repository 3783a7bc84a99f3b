import GeminiTS.Immutable.MsBuilder

/-!
# FlushChunks — flushing the series of a measurement

`SplitRecordByTime` (`engine/mutable/ts_table.go`): the rows after the time of the last flush go to
an ordered file, the others to an out-of-order file. A column without a value in a part is not in
the part.

`tsMemTableImpl.FlushChunks` (`engine/mutable/ts_table.go`): the record of each series is divided at
the time up to which the series has been flushed; the later rows are written to ordered files, the
others to out-of-order files, and the files are added to the store at the end.
-/

namespace GeminiTS

open Lib List

variable {F V : Type*}

/-- The rows up to `n` (`unOrderRec`). -/
def unOrderPart (rec : Record F V) (n : ℕ) : Record F V :=
  ⟨Record.dropNil (rec.cols.map fun c => (c.1, ColVal.appendColVal [] c.2 0 n)), rec.times.extract 0 n⟩

/-- The rows from `n` on (`orderRec`). -/
def orderPart (rec : Record F V) (n : ℕ) : Record F V :=
  ⟨Record.dropNil (rec.cols.map fun c => (c.1, ColVal.appendColVal [] c.2 n c.2.length)),
    rec.times.extract n rec.times.length⟩

/-- The ordered and the unordered part of a record (`SplitRecordByTime`). -/
def splitRecordByTime (rec : Record F V) (time : ℤ) : Option (Option (Record F V) × Option (Record F V)) :=
  match rec.times.head?, rec.times.getLast? with
  | some first, some last =>
    if time ≥ last then some (none, some rec)
    else if time < first then some (some rec, none)
    else
      let n := countLe rec.times time
      some (some (orderPart rec n), some (unOrderPart rec n))
  | _, _ => none

/-- The rows of a part. -/
def partRows [DecidableEq F] (part : Option (Record F V)) : List (ℤ × Row F V) := part.elim [] Record.rows

section Spec

variable [LinearOrder F] {rec : Record F V}

omit [LinearOrder F] in
theorem unOrderPart_eq (rec : Record F V) (n : ℕ) : unOrderPart rec n =
      ⟨Record.dropNil (rec.sliceFromRecord 0 n).cols, (rec.sliceFromRecord 0 n).times⟩ := rfl

theorem orderPart_eq (h : rec.WF) (n : ℕ) :
    orderPart rec n = ⟨Record.dropNil (rec.sliceFromRecord n rec.times.length).cols,
      (rec.sliceFromRecord n rec.times.length).times⟩ := by
  have hcols : (rec.cols.map fun c => (c.1, ColVal.appendColVal [] c.2 n c.2.length)) =
      (rec.sliceFromRecord n rec.times.length).cols := by
    refine map_congr_left fun c hc => ?_
    rw [h.aligned c hc]
    rfl
  rw [orderPart, hcols]
  rfl

theorem rows_unOrderPart (h : rec.WF) {n : ℕ} (hn : n ≤ rec.times.length) :
    (unOrderPart rec n).rows = rec.rows.take n := by
  rw [unOrderPart_eq, Record.rows_dropNil h.sliceFromRecord,
    Record.rows_sliceFromRecord (Nat.zero_le n) hn, extract_eq_take_drop, drop_zero,
    Nat.sub_zero]

theorem rows_orderPart (h : rec.WF) {n : ℕ} (hn : n ≤ rec.times.length) : (orderPart rec n).rows = rec.rows.drop n := by
  rw [orderPart_eq h, Record.rows_dropNil h.sliceFromRecord, Record.rows_sliceFromRecord hn le_rfl,
    ← Record.length_rows, extract_length]

/-- What the two parts of a stored record are: each is nil or can be stored, together they are the
rows of the record, and the ordered ones are later than `time`. -/
structure SplitAt (rec : Record F V) (time : ℤ) (order unorder : Option (Record F V)) : Prop where
  rows : partRows unorder ++ partRows order = rec.rows
  later : ∀ p ∈ partRows order, time < p.1
  order_stored : ∀ part ∈ order, part.Stored
  unorder_stored : ∀ part ∈ unorder, part.Stored

theorem time_mem_of_mem_rows {p : ℤ × Row F V} (hp : p ∈ rec.rows) : p.1 ∈ rec.times := by
  rw [← Record.map_fst_rows]
  exact mem_map_of_mem hp

theorem splitAt_of_between (h : rec.Stored) {time : ℤ} (hfirst : ∃ t ∈ rec.times, t ≤ time)
    (hlast : ∃ t ∈ rec.times, time < t) :
    SplitAt rec time (some (orderPart rec (countLe rec.times time)))
      (some (unOrderPart rec (countLe rec.times time))) := by
  have hn := countLe_le h.ascending time
  have hpos : 0 < countLe rec.times time := by
    obtain ⟨t, ht, hle⟩ := hfirst
    rw [countLe_eq h.ascending]
    exact length_pos_of_mem (mem_filter.mpr ⟨ht, decide_eq_true hle⟩)
  have hlt : countLe rec.times time < rec.times.length := by
    obtain ⟨t, ht, hlt⟩ := hlast
    rw [countLe_eq h.ascending, length_filter_lt_length_iff_exists]
    exact ⟨t, ht, by simpa using hlt⟩
  refine ⟨?_, fun p hp => ?_, ?_, ?_⟩
  · show (unOrderPart rec _).rows ++ (orderPart rec _).rows = rec.rows
    rw [rows_unOrderPart h.wf hn, rows_orderPart h.wf hn, take_append_drop]
  · have hmem : p.1 ∈ rec.times.drop (countLe rec.times time) := by
      rw [← Record.map_fst_rows, ← map_drop, Record.map_fst_rows, ← rows_orderPart h.wf hn]
      exact mem_map_of_mem hp
    rw [drop_countLe h.ascending] at hmem
    exact of_decide_eq_true (mem_filter.mp hmem).2
  · rintro part ⟨⟩
    rw [orderPart_eq h.wf]
    exact (h.slice hlt le_rfl).dropNil
  · rintro part ⟨⟩
    exact (h.slice hpos hn).dropNil

/-- **The two parts of a stored record.** -/
theorem splitRecordByTime_spec (h : rec.Stored) (time : ℤ) :
    ∃ order unorder, splitRecordByTime rec time = some (order, unorder) ∧ SplitAt rec time order unorder := by
  obtain ⟨first, hfirst⟩ : ∃ a, rec.times.head? = some a := ⟨_, head?_eq_some_head h.nonempty⟩
  obtain ⟨last, hlast⟩ : ∃ b, rec.times.getLast? = some b := ⟨_, getLast?_eq_some_getLast h.nonempty⟩
  simp only [splitRecordByTime, hfirst, hlast]
  split_ifs with hge hlt
  · exact ⟨_, _, rfl, append_nil _, fun p hp => absurd hp not_mem_nil, by simp, by simpa using h⟩
  · have hlate (p : ℤ × Row F V) (hp : p ∈ rec.rows) : time < p.1 :=
      hlt.trans_le (head?_le h.ascending hfirst (time_mem_of_mem_rows hp))
    exact ⟨_, _, rfl, rfl, hlate, by simpa using h, by simp⟩
  · exact ⟨_, _, rfl, splitAt_of_between h ⟨first, mem_of_mem_head? hfirst, not_lt.mp hlt⟩
      ⟨last, mem_of_getLast? hlast, not_le.mp hge⟩⟩

end Spec

/-! ### The series of a measurement -/

variable {N F V : Type*}

/-- A file of a measurement. -/
structure TsspFile (N F V : Type*) where
  name : N
  chunks : List (SeriesRecord F V)

/-- The files of all measurements, in the order of their sequences, and the sequencer. -/
structure TableStore (N F V : Type*) where
  order : List (TsspFile N F V)
  outOfOrder : List (TsspFile N F V)
  seq : Sequencer N

/-- The rows of a series in a list of chunks. -/
def seriesRows [DecidableEq F] (chunks : List (SeriesRecord F V)) (sid : ℕ) : List (ℤ × Row F V) :=
  (chunks.filter fun c => c.1 = sid).flatMap fun c => c.2.rows

section Flush

variable [LinearOrder F] [DecidableEq N] (conf : BuilderConf F V) (name : N)

/-- The time that divides the rows of a series: all rows are ordered in a measurement without ordered
files, and none if the table of the measurement (`live`) cannot be consulted. -/
def flushTime (hasOrderFile live : Bool) (s : Sequencer N) (sid : ℕ) : ℤ :=
  if hasOrderFile then if live then s.lastFlushTime name sid else maxInt64 else minInt64

/-- Write a part, opening a builder for the first one. -/
def writePart (sid : ℕ) (part : Option (Record F V)) (b : Option (MsBuilder N F V)) (s : Sequencer N) :
    Option (Option (MsBuilder N F V) × Sequencer N) :=
  match part with
  | none => some (b, s)
  | some rec =>
    if rec.rowNums > 0 then
      ((b.getD (MsBuilder.new name)).writeRecord conf sid rec s).map fun (b, s) => (some b, s)
    else some (b, s)

/-- The loop over the series, with the builders of the ordered and of the out-of-order files. -/
def flushLoop (hasOrderFile live : Bool) :
    List (SeriesRecord F V) → Option (MsBuilder N F V) → Option (MsBuilder N F V) → Sequencer N →
      Option (Option (MsBuilder N F V) × Option (MsBuilder N F V) × Sequencer N)
  | [], ob, ub, s => some (ob, ub, s)
  | (sid, rec) :: chunks, ob, ub, s =>
    (splitRecordByTime rec (flushTime name hasOrderFile live s sid)).bind fun (order, unorder) =>
      (writePart conf name sid order ob s).bind fun (ob, s) =>
        (writePart conf name sid unorder ub s).bind fun (ub, s) =>
          flushLoop hasOrderFile live chunks ob ub s

/-- The files of a builder once the last one is finished (`finish`). -/
def finish (b : Option (MsBuilder N F V)) (s : Sequencer N) : List (List (SeriesRecord F V)) × Sequencer N :=
  match b with
  | none => ([], s)
  | some b => ((b.newTSSPFile conf s).1.files, (b.newTSSPFile conf s).2)

def flushChunks (chunks : List (SeriesRecord F V)) (st : TableStore N F V) : Option (TableStore N F V) :=
  let hasOrderFile := st.order.any fun f => f.name = name
  let live := (st.seq.getMmsIdTime name).isSome
  (flushLoop conf name hasOrderFile live chunks none none st.seq).map fun (ob, ub, s) =>
    let (orderFiles, s) := finish conf ob s
    let (unOrderFiles, s) := finish conf ub s
    { order := st.order ++ orderFiles.map (TsspFile.mk name)
      outOfOrder := st.outOfOrder ++ unOrderFiles.map (TsspFile.mk name)
      seq := s }

end Flush

/-- The records of a memory table: distinct series in ascending order, rows that can be stored, 64-bit
times. -/
structure Flushable [LinearOrder F] (chunks : List (SeriesRecord F V)) : Prop where
  ids : (chunks.map Prod.fst).Pairwise (· < ·)
  stored : ∀ c ∈ chunks, c.2.Stored
  bounded : ∀ c ∈ chunks, ∀ t ∈ c.2.times, t ≤ maxInt64

section SeriesRows

variable [DecidableEq F]

theorem seriesRows_append (l1 l2 : List (SeriesRecord F V)) (sid : ℕ) :
    seriesRows (l1 ++ l2) sid = seriesRows l1 sid ++ seriesRows l2 sid := by
  rw [seriesRows, filter_append, flatMap_append]
  rfl

theorem seriesRows_cons (c : SeriesRecord F V) (l : List (SeriesRecord F V)) (sid : ℕ) :
    seriesRows (c :: l) sid = (if c.1 = sid then c.2.rows else []) ++ seriesRows l sid := by
  unfold seriesRows
  by_cases h : c.1 = sid
  · rw [filter_cons_of_pos (by simpa using h), flatMap_cons, if_pos h]
  · rw [filter_cons_of_neg (by simpa using h), if_neg h, nil_append]

theorem seriesRows_pieces (id : ℕ) (pieces : List (Record F V)) (sid : ℕ) :
    seriesRows (pieces.map (id, ·)) sid = if id = sid then pieces.flatMap Record.rows else [] := by
  unfold seriesRows
  split_ifs with h
  · rw [filter_eq_self.mpr (by simp [h]), flatMap_map]
  · rw [filter_eq_nil_iff.mpr (by simp [h]), flatMap_nil]

variable {chunks : List (SeriesRecord F V)}

theorem seriesRows_of_notMem {sid : ℕ} (h : sid ∉ chunks.map Prod.fst) : seriesRows chunks sid = [] := by
  unfold seriesRows
  rw [filter_eq_nil_iff.mpr, flatMap_nil]
  rintro c hc hsid
  exact h (mem_map.mpr ⟨c, hc, of_decide_eq_true hsid⟩)

theorem mem_seriesRows {sid : ℕ} {t : ℤ} :
    t ∈ (seriesRows chunks sid).map Prod.fst ↔ ∃ c ∈ chunks, c.1 = sid ∧ t ∈ c.2.times := by
  simp only [seriesRows, map_flatMap, Record.map_fst_rows, mem_flatMap, mem_filter, decide_eq_true_eq, and_assoc]

end SeriesRows

section Spec

variable [LinearOrder F] [DecidableEq N] {conf : BuilderConf F V} {name : N}

/-- The builder of a kind of files, a new one if none is open. -/
def builder (name : N) (b : Option (MsBuilder N F V)) : MsBuilder N F V := b.getD (MsBuilder.new name)

variable {b : Option (MsBuilder N F V)} {s : Sequencer N}

theorem writePart_spec (name : N) (hu : conf.unorderedOnly = false) {sid : ℕ} {part : Option (Record F V)}
    (hp : ∀ rec ∈ part, rec.Stored) (hv : (builder name b).Valid s) (hlt : ∀ c ∈ (builder name b).chunks, c.1 < sid) :
    ∃ (pieces : List (Record F V)) (b' : Option (MsBuilder N F V)) (s' : Sequencer N),
      writePart conf name sid part b s = some (b', s') ∧
      MsBuilder.Wrote (builder name b) s (pieces.map (sid, ·)) (builder name b') s' ∧
      pieces.flatMap Record.rows = partRows part ∧ ∀ c ∈ (builder name b').chunks, c.1 ≤ sid := by
  cases part with
  | none =>
    exact ⟨[], b, s, rfl, .refl hv, rfl, fun c hc => (hlt c hc).le⟩
  | some rec =>
    have hrec := hp rec rfl
    have hrows : rec.rowNums > 0 := length_pos_iff.mpr hrec.nonempty
    obtain ⟨pieces, b', s', heq, hw, hflat, hle⟩ := MsBuilder.writeRecord_spec hu hrec hv hlt
    refine ⟨pieces, some b', s', ?_, hw, hflat, hle⟩
    rw [writePart, if_pos hrows]
    exact congrArg (Option.map fun (b, s) => (some b, s)) heq

/-- **What the loop writes**: the rows of every series, divided between the two kinds of files, the
ordered ones later than the dividing time of the series at that point. -/
theorem flushLoop_spec (hu : conf.unorderedOnly = false) (hasOrderFile live : Bool)
    {later : ℕ → ℤ → Prop} (chunks : List (SeriesRecord F V)) (hc : Flushable chunks)
    (ob ub : Option (MsBuilder N F V)) (s : Sequencer N) (ho : (builder name ob).Valid s)
    (hub : (builder name ub).Valid s) (hoid : ∀ c ∈ (builder name ob).chunks, ∀ d ∈ chunks, c.1 < d.1)
    (huid : ∀ c ∈ (builder name ub).chunks, ∀ d ∈ chunks, c.1 < d.1)
    (hlater : ∀ s', s.Extends s' → ∀ sid t, t ≤ maxInt64 → flushTime name hasOrderFile live s' sid < t → later sid t) :
    ∃ wO wU ob' ub' s', flushLoop conf name hasOrderFile live chunks ob ub s = some (ob', ub', s') ∧
      MsBuilder.Wrote (builder name ob) s wO (builder name ob') s' ∧
      MsBuilder.Wrote (builder name ub) s wU (builder name ub') s' ∧
      (∀ sid, seriesRows wU sid ++ seriesRows wO sid = seriesRows chunks sid) ∧
      ∀ sid t, t ∈ (seriesRows wO sid).map Prod.fst → later sid t := by
  induction chunks generalizing ob ub s with
  | nil =>
    exact ⟨[], [], ob, ub, s, rfl, .refl ho, .refl hub, fun _ => rfl, fun _ _ h => absurd h not_mem_nil⟩
  | cons chunk chunks ih =>
    obtain ⟨sid, rec⟩ := chunk
    have hrec : rec.Stored := hc.stored (sid, rec) mem_cons_self
    obtain ⟨hids, hids'⟩ := pairwise_cons.mp (map_cons ▸ hc.ids)
    have hrest : Flushable chunks := ⟨hids', fun c h => hc.stored c (mem_cons_of_mem _ h),
      fun c h => hc.bounded c (mem_cons_of_mem _ h)⟩
    have hnext : ∀ d ∈ chunks, sid < d.1 := fun d hd => hids d.1 (mem_map_of_mem hd)
    obtain ⟨order, unorder, hsplit, hparts⟩ := splitRecordByTime_spec hrec (flushTime name hasOrderFile live s sid)
    obtain ⟨piecesO, ob1, s1, heqO, hwO, hflatO, hleO⟩ := writePart_spec name hu
      hparts.order_stored ho fun c h => hoid c h _ mem_cons_self
    have hextO := hwO.ext
    obtain ⟨piecesU, ub1, s2, heqU, hwU, hflatU, hleU⟩ := writePart_spec name hu
      hparts.unorder_stored (hub.mono hextO) fun c h => huid c h _ mem_cons_self
    -- the other builder does not change while one is written to
    replace hwO := hwO.mono hwU.ext
    replace hwU := hwU.of_extends hextO
    obtain ⟨wO, wU, ob', ub', s', heq, hwO', hwU', hrows, hlate⟩ := ih hrest ob1 ub1 s2 hwO.valid hwU.valid
      (fun c h d hd => (hleO c h).trans_lt (hnext d hd))
      (fun c h d hd => (hleU c h).trans_lt (hnext d hd))
      (fun s' hs' => hlater s' (hwO.ext.trans hs'))
    refine ⟨_, _, ob', ub', s', ?_, hwO.trans hwO', hwU.trans hwU', fun id => ?_, fun id t ht => ?_⟩
    · simp only [flushLoop, hsplit, Option.bind_some, heqO, heqU, heq]
    · -- only the record of this chunk has rows of its series
      rw [seriesRows_append, seriesRows_append, seriesRows_pieces, seriesRows_pieces, hflatO, hflatU, seriesRows_cons]
      split_ifs with h
      · have hnone : seriesRows chunks id = [] := seriesRows_of_notMem fun hmem => absurd (hids id hmem) (by omega)
        have hempty := hrows id
        rw [hnone, append_eq_nil_iff] at hempty
        rw [hempty.1, hempty.2, hnone, append_nil, append_nil, append_nil]
        exact hparts.rows
      · exact hrows id
    · rw [seriesRows_append, seriesRows_pieces, hflatO, map_append, mem_append] at ht
      rcases ht with ht | ht
      · split_ifs at ht with h
        · obtain ⟨p, hp, rfl⟩ := mem_map.mp ht
          have hmem : p ∈ rec.rows := hparts.rows ▸ mem_append_right _ hp
          exact hlater s (.refl s) id p.1 (hc.bounded _ mem_cons_self _ (time_mem_of_mem_rows hmem))
            (h ▸ hparts.later p hp)
        · exact absurd ht not_mem_nil
      · exact hlate id t ht

/-- The files of a builder hold all that was written to it, and the sequencer knows them. -/
theorem finish_spec (name : N) (hu : conf.unorderedOnly = false) (hv : (builder name b).Valid s)
    (hname : (builder name b).name = name) :
    (finish conf b s).1.flatten = (builder name b).all ∧ s.Extends (finish conf b s).2 ∧
      (∀ file ∈ (finish conf b s).1, (finish conf b s).2.Covers name file) := by
  cases b with
  | none => exact ⟨rfl, .refl s, fun _ h => absurd h not_mem_nil⟩
  | some b =>
    have hw := MsBuilder.wrote_newTSSPFile hu hv
    refine ⟨?_, hw.ext, fun file hf => ?_⟩
    · have hall := hw.all
      rw [append_nil, MsBuilder.all, MsBuilder.chunks_newTSSPFile, append_nil] at hall
      exact hall
    · have hcov := hw.valid.covered file hf
      rw [hw.name, hname] at hcov
      exact hcov

/-- What a flush adds to the store. -/
structure FlushedTo (name : N) (chunks : List (SeriesRecord F V)) (later : ℕ → ℤ → Prop)
    (st st' : TableStore N F V) (newO newU : List (List (SeriesRecord F V))) : Prop where
  order : st'.order = st.order ++ newO.map (TsspFile.mk name)
  outOfOrder : st'.outOfOrder = st.outOfOrder ++ newU.map (TsspFile.mk name)
  ext : st.seq.Extends st'.seq
  covers : ∀ file ∈ newO, st'.seq.Covers name file
  stored : ∀ c ∈ newO.flatten ++ newU.flatten, c.2.Stored
  rows : ∀ sid, seriesRows newU.flatten sid ++ seriesRows newO.flatten sid = seriesRows chunks sid
  later : ∀ sid t, t ∈ (seriesRows newO.flatten sid).map Prod.fst → later sid t

/-- **A flush writes exactly the rows it is given**, the ordered ones later than the dividing times. -/
theorem flushChunks_spec (name : N) (hu : conf.unorderedOnly = false)
    {chunks : List (SeriesRecord F V)} (hc : Flushable chunks) (st : TableStore N F V) {later : ℕ → ℤ → Prop}
    (hlater : ∀ s', st.seq.Extends s' → ∀ sid t, t ≤ maxInt64 →
      flushTime name (st.order.any fun f => f.name = name) (st.seq.getMmsIdTime name).isSome s' sid < t → later sid t) :
    ∃ st' newO newU, flushChunks conf name chunks st = some st' ∧ FlushedTo name chunks later st st' newO newU := by
  have hnew : (builder (F := F) (V := V) name none).Valid st.seq :=
    ⟨fun _ h => absurd h not_mem_nil, fun _ h => absurd h not_mem_nil⟩
  obtain ⟨wO, wU, ob, ub, s, heq, hwO, hwU, hrows, hlate⟩ := flushLoop_spec hu _ _ chunks hc none none
    st.seq hnew hnew (fun _ h => absurd h not_mem_nil) (fun _ h => absurd h not_mem_nil) hlater
  obtain ⟨hallO, hextO, hcovO⟩ := finish_spec name hu hwO.valid hwO.name
  obtain ⟨hallU, hextU, -⟩ := finish_spec name hu (hwU.valid.mono hextO) hwU.name
  have hO : (finish conf ob s).1.flatten = wO := hallO.trans hwO.all
  have hU : (finish conf ub (finish conf ob s).2).1.flatten = wU := hallU.trans hwU.all
  refine ⟨_, (finish conf ob s).1, (finish conf ub (finish conf ob s).2).1,
    congrArg (Option.map _) heq, rfl, rfl, hwO.ext.trans (hextO.trans hextU),
    fun file hf => (hcovO file hf).mono hextU, fun c hc => ?_, ?_, ?_⟩
  · rw [hallO, hallU] at hc
    rcases mem_append.mp hc with hc | hc
    · exact hwO.valid.stored c hc
    · exact hwU.valid.stored c hc
  · rwa [hO, hU]
  · rwa [hO]

theorem Flushable.sorted_seriesRows {chunks : List (SeriesRecord F V)} (hc : Flushable chunks)
    (sid : ℕ) : ((seriesRows chunks sid).map Prod.fst).Pairwise (· < ·) := by
  induction chunks with
  | nil => exact .nil
  | cons c chunks ih =>
    obtain ⟨hids, hids'⟩ := pairwise_cons.mp (map_cons ▸ hc.ids)
    have hrest : Flushable chunks := ⟨hids', fun c h => hc.stored c (mem_cons_of_mem _ h),
      fun c h => hc.bounded c (mem_cons_of_mem _ h)⟩
    rw [seriesRows_cons]
    split_ifs with h
    · rw [seriesRows_of_notMem fun hmem => absurd (hids sid hmem) (by omega), append_nil, Record.map_fst_rows]
      exact (hc.stored c mem_cons_self).ascending
    · exact ih hrest

end Spec

end GeminiTS
