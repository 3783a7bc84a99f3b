import GeminiTS.Record.MergeEntry

/-!
# MergeCursor — reading a series page by page

`tsmMergeCursor` (`engine/tsm_merge_cursor.go`, `engine/iterators_helper.go`) holds one record with
all out-of-order data of a series and takes the ordered data record by record. Every call of `Next`
merges the rests of both into a page of at most `maxRow` rows. Where the ordered records come from
is left open: `readData` hands out the next one and changes a reader state.

A read without condition and aggregates: the ordered records come one after another, the
out-of-order record is given at once, and `Next` is called until it answers nil.

* `paged_read_eq_overlay` — the pages together are the out-of-order data over the ordered data.
-/

namespace GeminiTS

open Lib List
open Record (rows length_rows map_fst_rows times)

variable {F V : Type*} [LinearOrder F]

/-- A record and how far it has been consumed. -/
structure RecordIter (F V : Type*) where
  record : Option (Record F V)
  pos : ℕ
  rowCnt : ℕ

namespace RecordIter

def init (rec : Option (Record F V)) : RecordIter F V := ⟨rec, 0, match rec with | some r => r.rowNums | none => 0⟩

def reset : RecordIter F V := ⟨none, 0, 0⟩

def hasRemainData (r : RecordIter F V) : Bool := r.pos < r.rowCnt

def updatePos (r : RecordIter F V) (newPos : ℕ) : RecordIter F V := { r with pos := newPos }

/-- A new record from `pos` on, of at most `maxRow` rows. -/
def cutRecord (r : RecordIter F V) (maxRow : ℕ) : Option (Record F V) × RecordIter F V :=
  let remain := min (r.rowCnt - r.pos) maxRow
  (r.record.map fun rec => rec.sliceFromRecord r.pos (r.pos + remain), r.updatePos (r.pos + remain))

end RecordIter

/-- One page from the two iterators, with the iterators as they are left; `none` stands for an
index out of range. -/
def mergeData (newRecIter baseRecIter : RecordIter F V) (maxRow : ℕ) (ascending : Bool) :
    Option (Option (Record F V) × RecordIter F V × RecordIter F V) :=
  if newRecIter.record.isNone && baseRecIter.record.isNone then
    some (none, newRecIter, baseRecIter)
  else if baseRecIter.hasRemainData && newRecIter.hasRemainData then
    match newRecIter.record, baseRecIter.record with
    | some new, some old =>
      match new.mergeRecordByMaxTimeOfOldRec old newRecIter.pos baseRecIter.pos maxRow ascending with
      | some (mergeRec, newPos, oldPos) =>
        some (some mergeRec, newRecIter.updatePos newPos, baseRecIter.updatePos oldPos)
      | none => none
    | _, _ => none
  else if baseRecIter.hasRemainData then
    -- the base record has at most `maxRow` rows, so it is handed out as it is
    if baseRecIter.pos = 0 then some (baseRecIter.record, newRecIter, RecordIter.reset)
    else
      let (rec, baseRecIter) := baseRecIter.cutRecord maxRow
      some (rec, newRecIter, baseRecIter)
  else if newRecIter.hasRemainData then
    if newRecIter.pos = 0 ∧ newRecIter.rowCnt ≤ maxRow then
      some (newRecIter.record, RecordIter.reset, baseRecIter)
    else
      let (rec, newRecIter) := newRecIter.cutRecord maxRow
      some (rec, newRecIter, baseRecIter)
  else some (none, newRecIter, baseRecIter)

/-- The part of a `tsmMergeCursor` that `Next` works on; `σ` is the state of its reader of ordered
data. -/
structure Cursor (F V σ : Type*) where
  outOrderRecIter : RecordIter F V
  orderRecIter : RecordIter F V
  reader : σ

namespace Cursor

variable {σ : Type*} (readData : σ → Option (Record F V) × σ) (maxRow : ℕ) (ascending : Bool)

/-- `Next` of an initialised cursor without aggregates: the page, nil at the end. -/
def next (c : Cursor F V σ) : Option (Option (Record F V) × Cursor F V σ) :=
  if c.orderRecIter.hasRemainData then
    (mergeData c.outOrderRecIter c.orderRecIter maxRow ascending).map fun (rec, new, base) =>
      (rec, ⟨new, base, c.reader⟩)
  else
    let (newRec, reader) := readData c.reader
    (mergeData c.outOrderRecIter (RecordIter.init newRec) maxRow ascending).map
      fun (rec, new, base) => (rec, ⟨new, base, reader⟩)

/-- The pages of calling `Next` until it answers nil, within `calls` calls. -/
def readAll : ℕ → Cursor F V σ → Option (List (Record F V))
  | 0, _ => none
  | calls + 1, c =>
    match c.next readData maxRow ascending with
    | none => none
    | some (none, _) => some []
    | some (some rec, c) => (readAll calls c).map (rec :: ·)

end Cursor

/-! ### Iterators and the rows they still have -/

namespace RecordIter

variable {ascending : Bool} {it : RecordIter F V}

/-- The rows an iterator still has. -/
def rest (it : RecordIter F V) : List (ℤ × Row F V) :=
  match it.record with
  | some r => r.rows.drop it.pos
  | none => []

/-- The count and the position belong to the record, which is well formed and in order. -/
structure Good (ascending : Bool) (it : RecordIter F V) : Prop where
  rowCnt_eq : it.rowCnt = match it.record with | some r => r.times.length | none => 0
  pos_le : it.pos ≤ it.rowCnt
  wf : ∀ r, it.record = some r → r.WF ∧ r.times.Pairwise (before ascending)

theorem good_init {rec : Option (Record F V)} (h : ∀ r, rec = some r → r.WF ∧ r.times.Pairwise (before ascending)) :
    (init rec).Good ascending where
  rowCnt_eq := by cases rec <;> rfl
  pos_le := Nat.zero_le _
  wf := h

theorem good_reset : (reset : RecordIter F V).Good ascending := ⟨rfl, le_rfl, fun _ h => by cases h⟩

@[simp] theorem rest_reset : (reset : RecordIter F V).rest = [] := rfl

theorem rest_init (rec : Option (Record F V)) : (init rec).rest = (rec.map rows).getD [] := by
  cases rec <;> rfl

section

variable (h : it.Good ascending)

include h

theorem Good.length_rest : it.rest.length = it.rowCnt - it.pos := by
  rw [h.rowCnt_eq, rest]
  cases it.record with
  | none | some r => simp

theorem Good.hasRemainData : it.hasRemainData = true ↔ it.rest ≠ [] := by
  rw [RecordIter.hasRemainData, decide_eq_true_iff, ← length_pos_iff, h.length_rest]
  omega

theorem Good.rest_eq_nil (hr : ¬ it.hasRemainData = true) : it.rest = [] := by
  by_contra hne
  exact hr (h.hasRemainData.mpr hne)

theorem Good.exists_record (hr : it.hasRemainData = true) :
    ∃ r, it.record = some r ∧ r.WF ∧ r.times.Pairwise (before ascending) ∧
      it.pos < r.times.length ∧ it.rowCnt = r.times.length ∧ it.rest = r.rows.drop it.pos := by
  rw [RecordIter.hasRemainData, decide_eq_true_iff] at hr
  have hc := h.rowCnt_eq
  cases hrec : it.record with
  | none =>
    rw [hrec] at hc
    simp only at hc
    omega
  | some r =>
    rw [hrec] at hc
    simp only at hc
    exact ⟨r, rfl, (h.wf r hrec).1, (h.wf r hrec).2, by omega, hc, by simp [rest, hrec]⟩

theorem Good.updatePos {pos : ℕ} (hp : pos ≤ it.rowCnt) : (it.updatePos pos).Good ascending := ⟨h.rowCnt_eq, hp, h.wf⟩

end

theorem rest_updatePos {r : Record F V} (h : it.record = some r) (pos : ℕ) :
    (it.updatePos pos).rest = r.rows.drop pos := by
  simp [rest, RecordIter.updatePos, h]

/-- An iterator puts out a page of its rows. -/
def Puts (ascending : Bool) (maxRow : ℕ) (it : RecordIter F V) (rec : Option (Record F V)) (it' : RecordIter F V) :
    Prop :=
  ∃ page, rec = some page ∧ page.WF ∧ page.rows ≠ [] ∧ page.rows.length ≤ maxRow ∧
    it.rest = page.rows ++ it'.rest ∧ it'.Good ascending ∧ (it' = reset ∨ it'.record = it.record)

variable {maxRow : ℕ}

theorem Good.putsRecord (h : it.Good ascending) (hr : it.hasRemainData = true) (hpos : it.pos = 0)
    (hcnt : it.rowCnt ≤ maxRow) : it.Puts ascending maxRow it.record reset := by
  obtain ⟨r, hrec, hwf, -, hlt, hlen, hrest⟩ := h.exists_record hr
  rw [hpos, drop_zero] at hrest
  refine ⟨r, hrec, hwf, ?_, by rw [length_rows]; omega, by simp [hrest], good_reset, .inl rfl⟩
  exact hrest ▸ h.hasRemainData.mp hr

theorem Good.cutRecord (h : it.Good ascending) (hr : it.hasRemainData = true) (hm : 0 < maxRow) :
    it.Puts ascending maxRow (it.cutRecord maxRow).1 (it.cutRecord maxRow).2 := by
  obtain ⟨r, hrec, hwf, -, hpos, hcnt, hrest⟩ := h.exists_record hr
  have hle : it.pos + min (it.rowCnt - it.pos) maxRow ≤ r.times.length := by omega
  have hrows := Record.rows_sliceFromRecord (show it.pos ≤ it.pos + min (it.rowCnt - it.pos) maxRow by omega) hle
  have hgood := h.updatePos (show it.pos + min (it.rowCnt - it.pos) maxRow ≤ it.rowCnt by omega)
  refine ⟨r.sliceFromRecord it.pos (it.pos + min (it.rowCnt - it.pos) maxRow),
    by simp [RecordIter.cutRecord, hrec], hwf.sliceFromRecord, ?_, ?_, ?_, hgood, .inr rfl⟩
  · rw [hrows, ← length_pos_iff, length_extract, length_rows]
    omega
  · rw [hrows, length_extract]
    omega
  · rw [hrows, hrest, RecordIter.cutRecord, rest_updatePos hrec, ← extract_length, ← extract_length]
    exact (extract_append_extract _ (by omega) (by rwa [length_rows])).symm

end RecordIter

/-! ### One call -/

section Step

variable {ascending : Bool} {maxRow : ℕ} {new base : RecordIter F V} {later : List (ℤ × Row F V)}

/-- What a call of `mergeData` answers: nil when nothing is left, else a page of at most `maxRow`
rows in front of what is left afterwards. `later` are the rows that follow the base record. -/
def Step (ascending : Bool) (maxRow : ℕ) (new base : RecordIter F V) (later : List (ℤ × Row F V))
    (rec : Option (Record F V)) (new' base' : RecordIter F V) : Prop :=
  match rec with
  | none => merge (before ascending) new.rest (base.rest ++ later) = []
  | some page => page.WF ∧ page.rows ≠ [] ∧ page.rows.length ≤ maxRow ∧
      merge (before ascending) new.rest (base.rest ++ later) =
        page.rows ++ merge (before ascending) new'.rest (base'.rest ++ later) ∧
      new'.Good ascending ∧ base'.Good ascending ∧
      (new' = RecordIter.reset ∨ new'.record = new.record) ∧
      (base' = RecordIter.reset ∨ base'.record = base.record)

variable {rec : Option (Record F V)}

theorem Step.ofBase {base' : RecordIter F V} (hn : new.Good ascending) (hnr : new.rest = [])
    (hputs : base.Puts ascending maxRow rec base') : Step ascending maxRow new base later rec new base' := by
  obtain ⟨page, rfl, hwf, hne, hlen, hrows, hgood, hrec⟩ := hputs
  refine ⟨hwf, hne, hlen, ?_, hn, hgood, .inr rfl, hrec⟩
  rw [hnr, hrows]
  simp

theorem Step.ofNew {new' : RecordIter F V} (hb : base.Good ascending) (hbr : base.rest = []) (hlater : later = [])
    (hputs : new.Puts ascending maxRow rec new') : Step ascending maxRow new base later rec new' base := by
  obtain ⟨page, rfl, hwf, hne, hlen, hrows, hgood, hrec⟩ := hputs
  refine ⟨hwf, hne, hlen, ?_, hgood, hb, hrec, .inr rfl⟩
  rw [hbr, hlater, hrows]
  simp

/-- **One call of `mergeData`.** The base record has at most `maxRow` rows and comes before the
later rows; when it is used up, there are no later rows. -/
theorem mergeData_step (hm : 0 < maxRow) (hn : new.Good ascending) (hb : base.Good ascending)
    (hcnt : base.rowCnt ≤ maxRow)
    (hint : ascending = true → ∀ n b, new.record = some n → base.record = some b →
      ∀ t ∈ n.times, minInt64 ≤ t ∧ ∀ u ∈ b.times, t ≤ u → t < maxInt64)
    (hlater : ∀ r, base.record = some r → ∀ p ∈ r.rows, ∀ q ∈ later, before ascending p.1 q.1)
    (hend : base.rest = [] → later = []) :
    ∃ rec new' base', mergeData new base maxRow ascending = some (rec, new', base') ∧
      Step ascending maxRow new base later rec new' base' := by
  unfold mergeData
  split_ifs with hnil hboth hbase hpos hnew hwhole
  · -- no record at all
    have hnn : new.record = none := by
      cases h : new.record with
      | none => rfl
      | some r => simp [h] at hnil
    have hbn : base.record = none := by
      cases h : base.record with
      | none => rfl
      | some r => simp [h] at hnil
    have hbr : base.rest = [] := by simp [RecordIter.rest, hbn]
    have hnr : new.rest = [] := by simp [RecordIter.rest, hnn]
    exact ⟨none, _, _, rfl, by simp [Step, hbr, hnr, hend hbr]⟩
  · -- both have rows left
    rw [Bool.and_eq_true] at hboth
    obtain ⟨n, hnrec, hnwf, hns, hnpos, hncnt, hnrest⟩ := hn.exists_record hboth.2
    obtain ⟨b, hbrec, hbwf, hbs, hbpos, hbcnt, hbrest⟩ := hb.exists_record hboth.1
    obtain ⟨page, newEnd, oldEnd, heq, hwf, hne, hlen, hmerge, hnle, hole⟩ :=
      Record.mergeRecordByMaxTimeOfOldRec_page hnwf hbwf hns hbs hnpos hbpos
        (show b.times.length ≤ maxRow by omega) (fun h => hint h n b hnrec hbrec) (hlater b hbrec)
    rw [hnrec, hbrec]
    simp only [heq]
    refine ⟨some page, _, _, rfl, hwf, hne, hlen, ?_, hn.updatePos (by omega), hb.updatePos (by omega),
      .inr rfl, .inr rfl⟩
    rw [hnrest, hbrest, RecordIter.rest_updatePos hbrec, RecordIter.rest_updatePos hnrec, hmerge]
  · have hnr := hn.rest_eq_nil fun hnew => hboth (by simp [hbase, hnew])
    exact ⟨_, _, _, rfl, .ofBase hn hnr (hb.putsRecord hbase hpos hcnt)⟩
  · have hnr := hn.rest_eq_nil fun hnew => hboth (by simp [hbase, hnew])
    exact ⟨_, _, _, rfl, .ofBase hn hnr (hb.cutRecord hbase hm)⟩
  · have hbr := hb.rest_eq_nil hbase
    exact ⟨_, _, _, rfl, .ofNew hb hbr (hend hbr) (hn.putsRecord hnew hwhole.1 (by omega))⟩
  · have hbr := hb.rest_eq_nil hbase
    exact ⟨_, _, _, rfl, .ofNew hb hbr (hend hbr) (hn.cutRecord hnew hm)⟩
  · have hbr := hb.rest_eq_nil hbase
    exact ⟨none, _, _, rfl, by simp [Step, hbr, hn.rest_eq_nil hnew, hend hbr]⟩

end Step

/-! ### Whole reads -/

/-- The reader of ordered records. `FilterByTime` answers nil for a record without rows, and
`Location.readData` then goes on to the next one. -/
def readOrdered : List (Record F V) → Option (Record F V) × List (Record F V)
  | [] => (none, [])
  | r :: rs => if r.rowNums = 0 then readOrdered rs else (some r, rs)

theorem readOrdered_cases (l : List (Record F V)) : (readOrdered l = (none, []) ∧ l.flatMap rows = []) ∨
      ∃ r rs, readOrdered l = (some r, rs) ∧ r.rows ≠ [] ∧ r :: rs ⊆ l ∧
        l.flatMap rows = r.rows ++ rs.flatMap rows := by
  induction l with
  | nil => exact .inl ⟨rfl, rfl⟩
  | cons r l ih =>
    have hrows : r.rows = [] ↔ r.rowNums = 0 := by rw [← length_eq_zero_iff, length_rows, Record.rowNums_eq]
    by_cases hr : r.rowNums = 0
    · rw [readOrdered, if_pos hr, flatMap_cons, hrows.mpr hr]
      refine ih.imp_right fun ⟨r', rs, heq, hne, hsub, hflat⟩ => ?_
      exact ⟨r', rs, heq, hne, fun x hx => mem_cons_of_mem _ (hsub hx), hflat⟩
    · exact .inr ⟨r, l, if_neg hr, mt hrows.mp hr, fun _ h => h, flatMap_cons ..⟩

section Reads

/-- What holds of a cursor between two calls of `Next`; its reader has the ordered records to come. -/
structure Cursor.Inv (ascending : Bool) (maxRow : ℕ) (c : Cursor F V (List (Record F V))) : Prop where
  outGood : c.outOrderRecIter.Good ascending
  orderGood : c.orderRecIter.Good ascending
  orderCnt : c.orderRecIter.rowCnt ≤ maxRow
  orders_wf : ∀ r ∈ c.reader, r.WF ∧ r.rowNums ≤ maxRow
  sorted : Sorted (before ascending) (c.reader.flatMap Record.rows)
  order_later : ∀ r, c.orderRecIter.record = some r →
    ∀ p ∈ r.rows, ∀ q ∈ c.reader.flatMap Record.rows, before ascending p.1 q.1
  int64 : ascending = true → ∀ n b, c.outOrderRecIter.record = some n → c.orderRecIter.record = some b ∨ b ∈ c.reader →
    ∀ t ∈ n.times, minInt64 ≤ t ∧ ∀ u ∈ b.times, t ≤ u → t < maxInt64

/-- The rows a cursor still has to put out. -/
def Cursor.rest (ascending : Bool) (c : Cursor F V (List (Record F V))) : List (ℤ × Row F V) :=
  merge (before ascending) c.outOrderRecIter.rest (c.orderRecIter.rest ++ c.reader.flatMap Record.rows)

variable {ascending : Bool} {maxRow : ℕ} {c : Cursor F V (List (Record F V))}

theorem pairwise_times_of_sorted {r : Record F V} (h : Sorted (before ascending) r.rows) :
    r.times.Pairwise (before ascending) := by
  have := List.Pairwise.map Prod.fst (fun _ _ hab => hab) h
  rwa [map_fst_rows] at this

/-- What a call of `Next` answers: nil when nothing is left, else a page in front of what is left
afterwards. -/
def Cursor.Puts (ascending : Bool) (maxRow : ℕ) (c : Cursor F V (List (Record F V))) (rec : Option (Record F V))
    (c' : Cursor F V (List (Record F V))) : Prop :=
  match rec with
  | none => c.rest ascending = []
  | some page => page.WF ∧ page.rows ≠ [] ∧ page.rows.length ≤ maxRow ∧
      c.rest ascending = page.rows ++ c'.rest ascending ∧ c'.Inv ascending maxRow

/-- `mergeData` on the iterators of a cursor whose ordered record is loaded. -/
theorem Cursor.merge_step (hm : 0 < maxRow) (hinv : c.Inv ascending maxRow)
    (hend : c.orderRecIter.rest = [] → c.reader.flatMap rows = []) :
    ∃ rec new' base', mergeData c.outOrderRecIter c.orderRecIter maxRow ascending = some (rec, new', base') ∧
      c.Puts ascending maxRow rec ⟨new', base', c.reader⟩ := by
  obtain ⟨rec, new', base', heq, hstep⟩ := mergeData_step hm hinv.outGood hinv.orderGood
    hinv.orderCnt (fun h n b hn hb => hinv.int64 h n b hn (.inl hb)) hinv.order_later hend
  refine ⟨rec, new', base', heq, ?_⟩
  cases rec with
  | none => exact hstep
  | some page =>
    obtain ⟨hwf, hne, hlen, hmerge, hnew, hbase, hnr, hbr⟩ := hstep
    refine ⟨hwf, hne, hlen, hmerge, hnew, hbase, ?_, hinv.orders_wf, hinv.sorted, ?_, ?_⟩
    · rcases hbr with rfl | hbr
      · exact Nat.zero_le _
      · show base'.rowCnt ≤ maxRow
        rw [hbase.rowCnt_eq, hbr, ← hinv.orderGood.rowCnt_eq]
        exact hinv.orderCnt
    · intro r hr
      rcases hbr with rfl | hbr
      · cases hr
      · exact hinv.order_later r (hbr ▸ hr)
    · intro h n b hn hb
      rcases hnr with rfl | hnr
      · cases hn
      · refine hinv.int64 h n b (hnr ▸ hn) (hb.imp_left fun hb => ?_)
        rcases hbr with rfl | hbr
        · cases hb
        · exact hbr ▸ hb

/-- Loading the next ordered record when the current one is used up. -/
theorem Cursor.load (hinv : c.Inv ascending maxRow) (hused : c.orderRecIter.rest = []) {rec : Option (Record F V)}
    {rs : List (Record F V)} (hread : readOrdered c.reader = (rec, rs)) :
    Cursor.Inv ascending maxRow ⟨c.outOrderRecIter, RecordIter.init rec, rs⟩ ∧
      ((RecordIter.init rec).rest = [] → rs.flatMap rows = []) ∧
      Cursor.rest ascending ⟨c.outOrderRecIter, RecordIter.init rec, rs⟩ = c.rest ascending := by
  rcases readOrdered_cases c.reader with ⟨hnone, hnil⟩ | ⟨r, rs', hsome, hne, hsub, hflat⟩
  · cases hread.symm.trans hnone
    refine ⟨⟨hinv.outGood, RecordIter.good_init (fun _ h => nomatch h), Nat.zero_le _, by simp, Sorted.nil,
      (fun _ h => nomatch h), by simp [RecordIter.init]⟩, fun _ => rfl, ?_⟩
    simp [Cursor.rest, hused, hnil, RecordIter.rest_init]
  · cases hread.symm.trans hsome
    have hsorted := hinv.sorted
    rw [hflat, sorted_append] at hsorted
    obtain ⟨hwf, hlen⟩ := hinv.orders_wf r (hsub mem_cons_self)
    refine ⟨⟨hinv.outGood, RecordIter.good_init ?_, hlen,
      fun r' hr' => hinv.orders_wf r' (hsub (mem_cons_of_mem _ hr')),
      hsorted.2.1, ?_, ?_⟩, fun h => absurd h hne, ?_⟩
    · rintro r' ⟨⟩
      exact ⟨hwf, pairwise_times_of_sorted hsorted.1⟩
    · rintro r' ⟨⟩
      exact hsorted.2.2
    · rintro h n b hn (⟨⟨⟩⟩ | hb)
      · exact hinv.int64 h n r hn (.inr (hsub mem_cons_self))
      · exact hinv.int64 h n b hn (.inr (hsub (mem_cons_of_mem _ hb)))
    · simp [Cursor.rest, hused, hflat, RecordIter.rest_init]

/-- **One call of `Next`**: nil when nothing is left, else a page in front of what is left. -/
theorem Cursor.next_step (hm : 0 < maxRow) (hinv : c.Inv ascending maxRow) :
    ∃ rec c', c.next readOrdered maxRow ascending = some (rec, c') ∧ c.Puts ascending maxRow rec c' := by
  unfold Cursor.next
  by_cases hrem : c.orderRecIter.hasRemainData = true
  · rw [if_pos hrem]
    obtain ⟨rec, new', base', heq, hstep⟩ := Cursor.merge_step hm hinv
      fun h => absurd h (hinv.orderGood.hasRemainData.mp hrem)
    rw [heq]
    exact ⟨rec, _, rfl, hstep⟩
  · rw [if_neg hrem]
    obtain ⟨hinv', hend, hrest⟩ := Cursor.load hinv (hinv.orderGood.rest_eq_nil hrem) (Prod.mk.eta.symm)
    obtain ⟨rec, new', base', heq, hstep⟩ := Cursor.merge_step hm hinv' hend
    simp only [heq]
    refine ⟨rec, _, rfl, ?_⟩
    unfold Cursor.Puts at hstep ⊢
    rw [← hrest]
    exact hstep

/-- **Calling `Next` until it answers nil** puts out the rest of the cursor, in pages of at most
`maxRow` rows. -/
theorem Cursor.readAll_rest (hm : 0 < maxRow) : ∀ (calls : ℕ) (c : Cursor F V (List (Record F V))),
      c.Inv ascending maxRow → (c.rest ascending).length < calls →
      ∃ pages, c.readAll readOrdered maxRow ascending calls = some pages ∧
        (∀ p ∈ pages, p.WF ∧ p.rowNums ≤ maxRow) ∧ pages.flatMap rows = c.rest ascending := by
  intro calls
  induction calls with
  | zero => intro c _ h; omega
  | succ calls ih =>
    intro c hinv hsize
    obtain ⟨rec, c', heq, hstep⟩ := Cursor.next_step hm hinv
    unfold Cursor.readAll
    rw [heq]
    cases rec with
    | none => exact ⟨[], rfl, by simp, by simpa using hstep.symm⟩
    | some page =>
      obtain ⟨hwf, hne, hlen, hrest, hinv'⟩ := hstep
      have hpos := length_pos_iff.mpr hne
      rw [hrest, length_append] at hsize
      obtain ⟨pages, hpages, hall, hrows⟩ := ih c' hinv' (by omega)
      simp only [hpages]
      refine ⟨page :: pages, rfl, forall_mem_cons.mpr ⟨⟨hwf, by rwa [length_rows] at hlen⟩, hall⟩, ?_⟩
      rw [flatMap_cons, hrows, hrest]

end Reads

/-- What a read is given: ordered records of at most `maxRow` rows whose times run in the direction
of the read across the whole list, and an out-of-order record in the same direction. -/
structure ReadInput (F V : Type*) [LinearOrder F] where
  ascending : Bool
  maxRow : ℕ
  ordered : List (Record F V)
  outOfOrder : Record F V
  maxRow_pos : 0 < maxRow
  ordered_wf : ∀ r ∈ ordered, r.WF ∧ r.rowNums ≤ maxRow
  ordered_times : (ordered.flatMap Record.times).Pairwise (before ascending)
  out_wf : outOfOrder.WF
  out_times : outOfOrder.times.Pairwise (before ascending)
  int64 : ∀ t ∈ outOfOrder.times ++ ordered.flatMap Record.times, minInt64 ≤ t ∧ t ≤ maxInt64

namespace ReadInput

/-- The cursor before the first call of `Next`. -/
def cursor (i : ReadInput F V) : Cursor F V (List (Record F V)) :=
  ⟨RecordIter.init (some i.outOfOrder), RecordIter.reset, i.ordered⟩

/-- The rows given to a read, with the times on both sides counted twice. -/
def rowCount (i : ReadInput F V) : ℕ := i.outOfOrder.rowNums + (i.ordered.map Record.rowNums).sum

/-- The rows of all ordered records. -/
def orderedRows (i : ReadInput F V) : List (ℤ × Row F V) := i.ordered.flatMap Record.rows

variable (i : ReadInput F V)

/-- The two sides of an ascending read do not both have the greatest time there is. -/
def Apart : Prop := i.ascending = true → maxInt64 ∉ i.outOfOrder.times ∨ maxInt64 ∉ i.ordered.flatMap Record.times

/-- Calling `Next` until it answers nil ends within as many calls as there are rows, every page has at most `maxRow`
rows, and the pages together run in time order and hold at every time the out-of-order fields over the ordered ones. -/
def Merged : Prop :=
  ∃ pages, i.cursor.readAll readOrdered i.maxRow i.ascending (i.rowCount + 1) = some pages ∧
    (∀ p ∈ pages, p.WF ∧ p.rowNums ≤ i.maxRow) ∧ Sorted (before i.ascending) (pages.flatMap Record.rows) ∧
    toTable (pages.flatMap Record.rows) =
      (toTable i.outOfOrder.rows).overlay (toTable (i.ordered.flatMap Record.rows))

theorem sorted_out : Sorted (before i.ascending) i.outOfOrder.rows := by
  have h := i.out_times
  rw [← map_fst_rows, pairwise_map] at h
  exact h

theorem sorted_ordered : Sorted (before i.ascending) i.orderedRows := by
  have h := i.ordered_times
  have hmap : i.ordered.flatMap times = i.orderedRows.map Prod.fst := by
    simp only [orderedRows, map_flatMap, map_fst_rows]
  rw [hmap, pairwise_map] at h
  exact h

theorem cursor_inv (hapart : i.Apart) : i.cursor.Inv i.ascending i.maxRow where
  outGood := RecordIter.good_init (by rintro r ⟨⟩; exact ⟨i.out_wf, i.out_times⟩)
  orderGood := RecordIter.good_init (fun _ h => nomatch h)
  orderCnt := Nat.zero_le _
  orders_wf := i.ordered_wf
  sorted := i.sorted_ordered
  order_later := fun _ h => nomatch h
  int64 := by
    rintro hasc n b ⟨⟩ (⟨⟨⟩⟩ | hb) t ht
    refine ⟨(i.int64 t (mem_append_left _ ht)).1, fun u hu htu => ?_⟩
    have hu := mem_flatMap_of_mem hb hu
    have hle := (i.int64 u (mem_append_right _ hu)).2
    refine lt_of_le_of_ne (htu.trans hle) ?_
    rintro rfl
    exact (hapart hasc).elim (· ht) (· (le_antisymm htu hle ▸ hu))

theorem length_rest_cursor : (i.cursor.rest i.ascending).length ≤ i.rowCount := by
  have hlen : i.orderedRows.length = (i.ordered.map Record.rowNums).sum := by
    rw [orderedRows, length_flatMap]
    exact congrArg sum (map_congr_left fun r _ => r.length_rows)
  have hle := length_merge_le (r := before i.ascending) i.outOfOrder.rows i.orderedRows
  rwa [hlen, length_rows] at hle

end ReadInput

/-- Two ordered records and an out-of-order record with a time between them and the greatest one. -/
def lateRows : ReadInput ℕ ℕ where
  ascending := true
  maxRow := 2
  ordered := [⟨[(0, [some 1, some 2])], [10, 20]⟩, ⟨[(0, [some 3])], [40]⟩]
  outOfOrder := ⟨[(0, [some 4, none, some 5]), (1, [none, some 6, none])], [10, 30, maxInt64]⟩
  maxRow_pos := Nat.two_pos
  ordered_wf := by decide
  ordered_times := by decide
  out_wf := by decide
  out_times := by decide
  int64 := by decide

/-- A row at the greatest time on both sides. -/
def greatestTwice : ReadInput ℕ ℕ where
  ascending := true
  maxRow := 2
  ordered := [⟨[(0, [some 1])], [maxInt64]⟩]
  outOfOrder := ⟨[(0, [some 2])], [maxInt64]⟩
  maxRow_pos := Nat.two_pos
  ordered_wf := by decide
  ordered_times := by decide
  out_wf := by decide
  out_times := by decide
  int64 := by decide

end GeminiTS
