import GeminiTS.Lib.SortSearch
import GeminiTS.Record.Stored

/-!
# MsBuilder — writing records to files

`MsBuilder.WriteRecord` (`engine/immutable/msbuilder.go`) appends one chunk per record to the
current file and starts a new file when the rows of a record or the size of the file reach a limit;
finishing a file reports the greatest time of each of its series to the sequencer.

The encoded size of a file is not modelled: any function of its chunks may decide when a file is
full. A panic or an error, which the callers turn into a panic, is `none`.

`engine/immutable/sequencer.go` keeps, for each measurement and series, the greatest time written
to a file and a row count. The tables may be freed and are then reloaded from the files; flushing
and counting rows go on meanwhile. The counter of series is left out, it is only reported.
-/

namespace GeminiTS

open Lib

/-- `idInfo`. -/
structure IdInfo where
  lastFlushTime : ℤ
  rows : ℤ
deriving DecidableEq

/-- What a file or a builder knows of a series: id, greatest time, number of rows
(`IdTimePairs`). -/
structure IdTimePair where
  id : ℕ
  tm : ℤ
  rows : ℤ
deriving DecidableEq

/-- The series of a measurement. -/
abbrev MmsIdTime := ℕ → Option IdInfo

namespace MmsIdTime

/-- `NewMmsIdTime`. -/
def new : MmsIdTime := fun _ => none

def get (m : MmsIdTime) (id : ℕ) : ℤ × ℤ :=
  match m id with
  | none => (minInt64, 0)
  | some info => (info.lastFlushTime, info.rows)

/-- The entry of a series, a new one if there is none. -/
def createIdInfo (m : MmsIdTime) (id : ℕ) : IdInfo := (m id).getD ⟨minInt64, 0⟩

def addRowCounts (id : ℕ) (rowCounts : ℤ) (m : MmsIdTime) : MmsIdTime :=
  let info := m.createIdInfo id
  Function.update m id (some { info with rows := int64 (info.rows + rowCounts) })

/-- One round of the loop of `batchUpdateCheckTime`. -/
def updateCheckTime (incrRows : Bool) (m : MmsIdTime) (p : IdTimePair) : MmsIdTime :=
  let info := m.createIdInfo p.id
  Function.update m p.id (some
    { rows := if incrRows then int64 (info.rows + p.rows) else info.rows
      lastFlushTime := if p.tm > info.lastFlushTime then p.tm else info.lastFlushTime })

def batchUpdateCheckTime (pairs : List IdTimePair) (incrRows : Bool) (m : MmsIdTime) : MmsIdTime :=
  pairs.foldl (updateCheckTime incrRows) m

variable (m : MmsIdTime) (id : ℕ)

theorem get_fst : (m.get id).1 = (m.createIdInfo id).lastFlushTime := by
  unfold get createIdInfo
  cases m id <;> rfl

theorem get_update_fst (info : IdInfo) (id' : ℕ) :
    (get (Function.update m id (some info)) id').1 = if id' = id then info.lastFlushTime else (m.get id').1 := by
  unfold get
  rw [Function.update_apply]
  split_ifs <;> rfl

theorem get_addRowCounts_fst (rowCounts : ℤ) (id' : ℕ) : ((m.addRowCounts id rowCounts).get id').1 = (m.get id').1 := by
  rw [addRowCounts, get_update_fst]
  split_ifs with h
  · rw [h, get_fst]
  · rfl

/-- The times of the pairs are known afterwards, and no time is forgotten. -/
theorem get_batchUpdateCheckTime (pairs : List IdTimePair) (incrRows : Bool) (m : MmsIdTime) :
    (∀ id, (m.get id).1 ≤ ((m.batchUpdateCheckTime pairs incrRows).get id).1) ∧
      ∀ p ∈ pairs, p.tm ≤ ((m.batchUpdateCheckTime pairs incrRows).get p.id).1 := by
  induction pairs generalizing m with
  | nil => exact ⟨fun _ => le_rfl, fun p hp => absurd hp List.not_mem_nil⟩
  | cons p pairs ih =>
    obtain ⟨hle, hmem⟩ := ih (m.updateCheckTime incrRows p)
    have hself : (m.get p.id).1 ≤ ((m.updateCheckTime incrRows p).get p.id).1 ∧
        p.tm ≤ ((m.updateCheckTime incrRows p).get p.id).1 := by
      rw [updateCheckTime, get_update_fst, get_fst]
      dsimp only
      split_ifs <;> omega
    refine ⟨fun id => le_trans ?_ (hle id), List.forall_mem_cons.mpr ⟨hself.2.trans (hle p.id), hmem⟩⟩
    by_cases h : id = p.id
    · exact h ▸ hself.1
    · rw [updateCheckTime, get_update_fst, if_neg h]

end MmsIdTime

/-- The tables of all measurements. -/
structure Sequencer (N : Type*) where
  mmsIdTime : N → Option MmsIdTime
  isLoading : Bool
  isFree : Bool
  ref : ℤ

namespace Sequencer

variable {N : Type*} [DecidableEq N]

/-- `NewSequencer`. -/
def new : Sequencer N := ⟨fun _ => none, false, false, 0⟩

def free (s : Sequencer N) : Sequencer N :=
  if s.isFree then s
  else if s.ref ≠ 0 then s
  else { s with mmsIdTime := fun _ => none, isFree := true }

def addRef (s : Sequencer N) : Sequencer N := { s with ref := s.ref + 1 }

def unRef (s : Sequencer N) : Sequencer N := { s with ref := s.ref - 1 }

def resetMmsIdTime (s : Sequencer N) : Sequencer N := { s with mmsIdTime := fun _ => none }

def setStat (free loading : Bool) (s : Sequencer N) : Sequencer N := { s with isFree := free, isLoading := loading }

/-- The state to continue with if loading may start. -/
def setToInLoading (s : Sequencer N) : Option (Sequencer N) :=
  if s.isFree && !s.isLoading then some { s with isLoading := true } else none

/-- The table of a measurement, created if absent. -/
def table (s : Sequencer N) (name : N) : MmsIdTime := (s.mmsIdTime name).getD MmsIdTime.new

def setTable (name : N) (m : MmsIdTime) (s : Sequencer N) : Sequencer N :=
  { s with mmsIdTime := Function.update s.mmsIdTime name (some m) }

def batchUpdateCheckTime (unorderedOnly : Bool) (name : N) (pairs : List IdTimePair) (incrRows : Bool)
    (s : Sequencer N) : Sequencer N :=
  if unorderedOnly then s
  else s.setTable name ((s.table name).batchUpdateCheckTime pairs incrRows)

def addRowCounts (name : N) (id : ℕ) (rowCounts : ℤ) (s : Sequencer N) : Sequencer N :=
  s.setTable name ((s.table name).addRowCounts id rowCounts)

def get (s : Sequencer N) (name : N) (id : ℕ) : ℤ × ℤ :=
  match s.mmsIdTime name with
  | none => (minInt64, 0)
  | some m => m.get id

/-- `GetMmsIdTime`: nothing while the tables are freed or being loaded. -/
def getMmsIdTime (s : Sequencer N) (name : N) : Option MmsIdTime :=
  if s.isFree || s.isLoading then none else s.mmsIdTime name

/-- The time up to which the series has been flushed. -/
def lastFlushTime (s : Sequencer N) (name : N) (id : ℕ) : ℤ := (s.get name id).1

omit [DecidableEq N] in
theorem lastFlushTime_eq (s : Sequencer N) (name : N) (id : ℕ) :
    s.lastFlushTime name id = ((s.table name).get id).1 := by
  unfold lastFlushTime get table
  cases s.mmsIdTime name <;> rfl

section Update

variable (s : Sequencer N) (name : N)

theorem lastFlushTime_setTable (m : MmsIdTime) (name' : N) (id : ℕ) : (s.setTable name m).lastFlushTime name' id =
      if name' = name then (m.get id).1 else s.lastFlushTime name' id := by
  rw [lastFlushTime_eq, lastFlushTime_eq]
  show ((Function.update s.mmsIdTime name _ name').getD _ |>.get id).1 = _
  rw [Function.update_apply]
  split_ifs <;> rfl

theorem lastFlushTime_addRowCounts (id : ℕ) (rowCounts : ℤ) (name' : N) (id' : ℕ) :
    (s.addRowCounts name id rowCounts).lastFlushTime name' id' = s.lastFlushTime name' id' := by
  rw [addRowCounts, lastFlushTime_setTable]
  split_ifs with h
  · rw [h, lastFlushTime_eq, MmsIdTime.get_addRowCounts_fst]
  · rfl

theorem lastFlushTime_batchUpdateCheckTime (pairs : List IdTimePair) (incrRows : Bool) :
    (∀ name' id, s.lastFlushTime name' id ≤ (s.batchUpdateCheckTime false name pairs incrRows).lastFlushTime name' id) ∧
      ∀ p ∈ pairs, p.tm ≤ (s.batchUpdateCheckTime false name pairs incrRows).lastFlushTime name p.id := by
  obtain ⟨hle, hmem⟩ := (s.table name).get_batchUpdateCheckTime pairs incrRows
  simp only [batchUpdateCheckTime, Bool.false_eq_true, if_false, lastFlushTime_setTable]
  refine ⟨fun name' id => ?_, hmem⟩
  split_ifs with h
  · rw [h, lastFlushTime_eq]
    exact hle id
  · exact le_rfl

end Update

end Sequencer

/-! ### Writing records -/

open List

variable {N F V : Type*}

/-- The record of a series in a file. -/
abbrev SeriesRecord (F V : Type*) := ℕ × Record F V

/-- What writing depends on. -/
structure BuilderConf (F V : Type*) where
  /-- `maxRowsPerSegment * maxSegmentLimit` -/
  rowsLimit : ℕ
  /-- `Size() >= fileSizeLimit` -/
  sizeReached : List (SeriesRecord F V) → Bool
  unorderedOnly : Bool
  rowsLimit_pos : 0 < rowsLimit

/-- A builder: the files it has finished, and the chunks of the current one. -/
structure MsBuilder (N F V : Type*) where
  name : N
  files : List (List (SeriesRecord F V))
  chunks : List (SeriesRecord F V)

namespace MsBuilder

/-- `NewMsBuilder`. -/
def new (name : N) : MsBuilder N F V := ⟨name, [], []⟩

/-- The series of a file, with their greatest times (`pair`). -/
def pairs (chunks : List (SeriesRecord F V)) : List IdTimePair :=
  chunks.map fun c => ⟨c.1, c.2.times.getLast?.getD 0, c.2.rowNums⟩

/-- The id written last, zero in a new file (`trailer.maxId`). -/
def maxId (b : MsBuilder N F V) : ℕ := (b.chunks.getLast?.map Prod.fst).getD 0

/-- Everything written so far. -/
def all (b : MsBuilder N F V) : List (SeriesRecord F V) := b.files.flatten ++ b.chunks

section Write

variable [LinearOrder F] [DecidableEq N] (conf : BuilderConf F V)

def writeData (id : ℕ) (data : Record F V) (b : MsBuilder N F V) : Option (MsBuilder N F V) :=
  data.checkRecord.bind fun data =>
    if b.maxId ≠ 0 ∧ id ≤ b.maxId then none
    else some { b with chunks := b.chunks ++ [(id, data)] }

/-- Finish the current file, unless it is empty. -/
def newTSSPFile (b : MsBuilder N F V) (s : Sequencer N) : MsBuilder N F V × Sequencer N :=
  if b.chunks.isEmpty then (b, s)
  else ({ b with files := b.files ++ [b.chunks], chunks := [] },
    s.batchUpdateCheckTime conf.unorderedOnly b.name (pairs b.chunks) false)

/-- The pieces of a record above the row limit, each but the last in a file it ends. -/
def writePieces (id : ℕ) : List (Record F V) → MsBuilder N F V → Sequencer N → Option (MsBuilder N F V × Sequencer N)
  | [], b, s => some (b, s)
  | piece :: pieces, b, s =>
    (b.writeData id piece).bind fun b =>
      if !pieces.isEmpty || conf.sizeReached b.chunks then
        writePieces id pieces (b.newTSSPFile conf s).1 (b.newTSSPFile conf s).2
      else writePieces id pieces b s

def writeRecord (id : ℕ) (data : Record F V) (b : MsBuilder N F V) (s : Sequencer N) :
    Option (MsBuilder N F V × Sequencer N) :=
  if data.rowNums ≤ conf.rowsLimit then
    (b.writeData id data).map fun b =>
      if conf.sizeReached b.chunks then b.newTSSPFile conf s else (b, s)
  else writePieces conf id (data.split conf.rowsLimit) b s

end Write

end MsBuilder

namespace Sequencer

/-- The sequencer is ahead of what it was, and as free. -/
structure Extends (s s' : Sequencer N) : Prop where
  le : ∀ name id, s.lastFlushTime name id ≤ s'.lastFlushTime name id
  isFree : s'.isFree = s.isFree

variable {chunks : List (SeriesRecord F V)} (s : Sequencer N) (name : N)

theorem Extends.refl : s.Extends s := ⟨fun _ _ => le_rfl, rfl⟩

theorem Extends.trans {s1 s2 s3 : Sequencer N} (h1 : s1.Extends s2) (h2 : s2.Extends s3) : s1.Extends s3 where
  le name id := (h1.le name id).trans (h2.le name id)
  isFree := h2.isFree.trans h1.isFree

theorem extends_batchUpdateCheckTime [DecidableEq N] (pairs : List IdTimePair) (incrRows : Bool) :
    s.Extends (s.batchUpdateCheckTime false name pairs incrRows) :=
  ⟨(s.lastFlushTime_batchUpdateCheckTime name pairs incrRows).1, rfl⟩

/-- The sequencer knows every time of the chunks. -/
def Covers (s : Sequencer N) (name : N) (chunks : List (SeriesRecord F V)) : Prop :=
  ∀ c ∈ chunks, ∀ t ∈ c.2.times, t ≤ s.lastFlushTime name c.1

theorem Covers.mono {s s' : Sequencer N} {name : N} (h : s.Covers name chunks) (hs : s.Extends s') :
    s'.Covers name chunks :=
  fun c hc t ht => (h c hc t ht).trans (hs.le name c.1)

/-- Reporting a file covers it: the last time of a chunk is its greatest. -/
theorem covers_batchUpdateCheckTime [DecidableEq N] [LinearOrder F] (hc : ∀ c ∈ chunks, c.2.Stored) (incrRows : Bool) :
    (s.batchUpdateCheckTime false name (MsBuilder.pairs chunks) incrRows).Covers name chunks := by
  intro c hmem t ht
  have hlast : c.2.times.getLast? = some (c.2.times.getLast (hc c hmem).nonempty) := getLast?_eq_some_getLast _
  have hpair := (s.lastFlushTime_batchUpdateCheckTime name (MsBuilder.pairs chunks) incrRows).2 _ (mem_map_of_mem hmem)
  rw [hlast] at hpair
  exact (le_getLast? (hc c hmem).ascending hlast ht).trans hpair

end Sequencer

namespace MsBuilder

variable [LinearOrder F] [DecidableEq N] {conf : BuilderConf F V}

/-- Only records that can be stored are written, and the sequencer knows the finished files. -/
structure Valid (s : Sequencer N) (b : MsBuilder N F V) : Prop where
  stored : ∀ c ∈ b.all, c.2.Stored
  covered : ∀ file ∈ b.files, s.Covers b.name file

variable {b : MsBuilder N F V} {s : Sequencer N}

omit [DecidableEq N] in
theorem Valid.mono {s' : Sequencer N} (h : b.Valid s) (hs : s.Extends s') :
    b.Valid s' := ⟨h.stored, fun file hf => (h.covered file hf).mono hs⟩

/-- From `b` and `s` the writes lead to `b'` and `s'`, appending `written`. -/
structure Wrote (b : MsBuilder N F V) (s : Sequencer N) (written : List (SeriesRecord F V))
    (b' : MsBuilder N F V) (s' : Sequencer N) : Prop where
  valid : b'.Valid s'
  ext : s.Extends s'
  all : b'.all = b.all ++ written
  name : b'.name = b.name

section Wrote

variable {b' : MsBuilder N F V} {s' s0 : Sequencer N} {w : List (SeriesRecord F V)}

omit [DecidableEq N]

theorem Wrote.refl (hv : b.Valid s) : Wrote b s [] b s := ⟨hv, .refl s, (append_nil _).symm, rfl⟩

theorem Wrote.mono (h : Wrote b s w b' s') (hs : s'.Extends s0) : Wrote b s w b' s0 :=
  ⟨h.valid.mono hs, h.ext.trans hs, h.all, h.name⟩

theorem Wrote.of_extends (h : Wrote b s w b' s') (hs : s0.Extends s) : Wrote b s0 w b' s' :=
  ⟨h.valid, hs.trans h.ext, h.all, h.name⟩

end Wrote

theorem wrote_newTSSPFile (hu : conf.unorderedOnly = false)
    (hv : b.Valid s) : Wrote b s [] (b.newTSSPFile conf s).1 (b.newTSSPFile conf s).2 := by
  unfold newTSSPFile
  split_ifs with he
  · exact .refl hv
  · rw [hu]
    have hext := s.extends_batchUpdateCheckTime b.name (pairs b.chunks) false
    have hall : ({ b with files := b.files ++ [b.chunks], chunks := [] }).all = b.all := by
      simp [MsBuilder.all]
    refine ⟨⟨fun c hc => hv.stored c (hall ▸ hc), ?_⟩, hext, by rw [hall, append_nil], rfl⟩
    intro file hf
    rcases mem_append.mp hf with hf | hf
    · exact (hv.covered file hf).mono hext
    · rw [mem_singleton.mp hf]
      exact s.covers_batchUpdateCheckTime b.name (fun c hc => hv.stored c (mem_append_right _ hc)) false

variable {id : ℕ} {data : Record F V}

omit [DecidableEq N] in
theorem writeData_eq (hd : data.Stored) (hid : ∀ c ∈ b.chunks, c.1 < id) :
    b.writeData id data = some { b with chunks := b.chunks ++ [(id, data)] } := by
  have hmax : ¬ (b.maxId ≠ 0 ∧ id ≤ b.maxId) := by
    rintro ⟨hne, hle⟩
    unfold maxId at hne hle
    cases hl : b.chunks.getLast? with
    | none => rw [hl] at hne; exact hne rfl
    | some c =>
      rw [hl] at hle
      exact absurd (hid c (mem_of_getLast? hl)) (not_lt.mpr hle)
  rw [writeData, hd.checkRecord, Option.bind_some, if_neg hmax]

omit [DecidableEq N] in
theorem Wrote.trans {b1 b2 b3 : MsBuilder N F V} {s1 s2 s3 : Sequencer N}
    {w w' : List (SeriesRecord F V)} (h1 : Wrote b1 s1 w b2 s2) (h2 : Wrote b2 s2 w' b3 s3) :
    Wrote b1 s1 (w ++ w') b3 s3 where
  valid := h2.valid
  ext := h1.ext.trans h2.ext
  all := by rw [h2.all, h1.all, append_assoc]
  name := h2.name.trans h1.name

omit [DecidableEq N] in
theorem wrote_append (id : ℕ) (hd : data.Stored) (hv : b.Valid s) :
    Wrote b s [(id, data)] { b with chunks := b.chunks ++ [(id, data)] } s := by
  have hall : ({ b with chunks := b.chunks ++ [(id, data)] }).all = b.all ++ [(id, data)] := by
    simp [MsBuilder.all]
  refine ⟨⟨fun c hc => ?_, hv.covered⟩, .refl s, hall, rfl⟩
  rcases mem_append.mp (hall ▸ hc) with hc | hc
  · exact hv.stored c hc
  · rw [mem_singleton.mp hc]
    exact hd

omit [LinearOrder F] in
theorem chunks_newTSSPFile (conf : BuilderConf F V) (b : MsBuilder N F V) (s : Sequencer N) :
    (b.newTSSPFile conf s).1.chunks = [] := by
  unfold newTSSPFile
  split_ifs with he
  · exact isEmpty_iff.mp he
  · rfl

theorem writePieces_spec (hu : conf.unorderedOnly = false) (id : ℕ) (pieces : List (Record F V))
    (hp : ∀ p ∈ pieces, p.Stored) (b : MsBuilder N F V) (s : Sequencer N) (hv : b.Valid s)
    (hle : ∀ c ∈ b.chunks, c.1 ≤ id) (hlt : pieces ≠ [] → ∀ c ∈ b.chunks, c.1 < id) :
    ∃ b' s', writePieces conf id pieces b s = some (b', s') ∧
      Wrote b s (pieces.map (id, ·)) b' s' ∧ ∀ c ∈ b'.chunks, c.1 ≤ id := by
  induction pieces generalizing b s with
  | nil => exact ⟨b, s, rfl, .refl hv, hle⟩
  | cons piece pieces ih =>
    have hpiece := hp piece mem_cons_self
    have hrest : ∀ p ∈ pieces, p.Stored := fun p h => hp p (mem_cons_of_mem _ h)
    have hone := wrote_append id hpiece hv
    rw [writePieces, writeData_eq hpiece (hlt (cons_ne_nil _ _)), Option.bind_some]
    split_ifs with hswitch
    · have hfile := hone.trans (wrote_newTSSPFile hu hone.valid)
      have hnil := chunks_newTSSPFile conf ({ b with chunks := b.chunks ++ [(id, piece)] }) s
      obtain ⟨b', s', heq, hw, hle'⟩ := ih hrest _ _ hfile.valid (fun c hc => absurd (hnil ▸ hc) not_mem_nil)
        (fun _ c hc => absurd (hnil ▸ hc) not_mem_nil)
      exact ⟨b', s', heq, hfile.trans hw, hle'⟩
    · -- the last piece, in a file that is not full
      have hlast : pieces = [] := by
        by_contra hne
        simp [hne] at hswitch
      obtain ⟨b', s', heq, hw, hle'⟩ := ih hrest _ _ hone.valid (fun c hc => by
        rcases mem_append.mp hc with hc | hc
        · exact hle c hc
        · rw [mem_singleton.mp hc]) (fun hne => absurd hlast hne)
      exact ⟨b', s', heq, hone.trans hw, hle'⟩

/-- **Writing a record**: pieces of it, one after the other, are appended. -/
theorem writeRecord_spec (hu : conf.unorderedOnly = false) (hd : data.Stored) (hv : b.Valid s)
    (hlt : ∀ c ∈ b.chunks, c.1 < id) :
    ∃ (pieces : List (Record F V)) (b' : MsBuilder N F V) (s' : Sequencer N),
      writeRecord conf id data b s = some (b', s') ∧
      Wrote b s (pieces.map (id, ·)) b' s' ∧ pieces.flatMap Record.rows = data.rows ∧
      ∀ c ∈ b'.chunks, c.1 ≤ id := by
  -- a record below the limit is its only piece
  have hpieces : writeRecord conf id data b s = writePieces conf id
      (if data.rowNums ≤ conf.rowsLimit then [data] else data.split conf.rowsLimit) b s := by
    rw [writeRecord]
    split_ifs
    · rw [writePieces]
      cases b.writeData id data with
      | none => rfl
      | some b =>
        simp only [Option.map_some, Option.bind_some, isEmpty_nil, Bool.not_true, Bool.false_or]
        split_ifs <;> rfl
    · rfl
  have hstored : ∀ p ∈ if data.rowNums ≤ conf.rowsLimit then [data] else data.split conf.rowsLimit, p.Stored := by
    split_ifs
    · exact forall_mem_singleton.mpr hd
    · exact fun p hp => hd.of_mem_split conf.rowsLimit_pos hp
  obtain ⟨b', s', heq, hw, hle⟩ := writePieces_spec hu id _ hstored b s hv (fun c hc => (hlt c hc).le) fun _ => hlt
  refine ⟨_, b', s', hpieces.trans heq, hw, ?_, hle⟩
  split_ifs
  · exact flatMap_singleton ..
  · exact Record.flatMap_rows_split conf.rowsLimit_pos

end MsBuilder

end GeminiTS
