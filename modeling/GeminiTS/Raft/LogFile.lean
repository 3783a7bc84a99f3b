import GeminiTS.Lib.Bytes
import GeminiTS.Lib.Patch
import GeminiTS.Lib.SortSearch

/-!
# LogFile — a file of the raft log

`FileWrap` of `lib/raftlog/file.go` and `logFile` of `lib/raftlog/log.go`. A file begins with slots of four
numbers each; the data of the entries is behind them, each with its length in four bytes. The file is
held in memory as well; only the disk is ever cut. A read behind the end of the memory panics and has no
result here.
-/

namespace GeminiTS.Raft

open Lib List

/-- `raftpb.EntryType`. -/
abbrev EntryType := Int32

def entryNormal : EntryType := 0

def entryConfChange : EntryType := 1

structure Entry where
  term : ℕ
  index : ℕ
  type : EntryType
  data : Bytes
deriving DecidableEq

/-- Index of the first entry. -/
def firstOf (es : List Entry) : ℕ := (es.head?.map Entry.index).getD 0

/-- Index of the last entry. -/
def lastOf (es : List Entry) : ℕ := (es.getLast?.map Entry.index).getD 0

/-- Each entry has the index after that of the entry before it. -/
def Consecutive (es : List Entry) : Prop := es.map Entry.index = List.range' (firstOf es) es.length

instance (es : List Entry) : Decidable (Consecutive es) := inferInstanceAs (Decidable (_ = _))

namespace Consecutive

variable {es : List Entry} (h : Consecutive es)

include h

theorem index_getElem {i : ℕ} (hi : i < es.length) : es[i].index = firstOf es + i := by
  have := congrArg (·[i]?) h
  simpa [hi] using this

theorem lastOf_eq (hne : es ≠ []) : lastOf es = firstOf es + (es.length - 1) := by
  have hlen := length_pos_iff.mpr hne
  rw [lastOf, getLast?_eq_getElem?, getElem?_eq_getElem (by omega)]
  exact h.index_getElem (by omega)

theorem pairwise_lt : es.Pairwise fun e e' => e.index < e'.index := by
  rw [← pairwise_map, h]
  exact pairwise_lt_range'

variable {b : ℕ} {e : Entry}

theorem index_le_lastOf (he : e ∈ es) : e.index ≤ lastOf es := by
  obtain ⟨i, hi, rfl⟩ := getElem_of_mem he
  rw [h.index_getElem hi, h.lastOf_eq (ne_nil_of_length_pos (by omega))]
  omega

theorem lt_of_mem_take (he : e ∈ es.take (b - firstOf es)) : e.index < b := by
  obtain ⟨i, hi, rfl⟩ := getElem_of_mem he
  rw [length_take] at hi
  rw [getElem_take, h.index_getElem (by omega)]
  omega

theorem le_of_mem_drop (he : e ∈ es.drop (b - firstOf es)) : b ≤ e.index := by
  obtain ⟨i, hi, rfl⟩ := getElem_of_mem he
  rw [length_drop] at hi
  rw [getElem_drop, h.index_getElem (by omega)]
  omega

theorem filter_index_lt (b : ℕ) : (es.filter fun e => e.index < b) = es.take (b - firstOf es) := by
  conv_lhs => rw [← take_append_drop (b - firstOf es) es]
  rw [filter_append, filter_eq_self.mpr fun e he => decide_eq_true (h.lt_of_mem_take he),
    filter_eq_nil_iff.mpr fun e he => by simpa using h.le_of_mem_drop he, append_nil]

/-- The entries above an index are those after as many as there are up to it. -/
theorem filter_lt (a : ℕ) : (es.filter fun e => a < e.index) = es.drop (a + 1 - firstOf es) := by
  conv_lhs => rw [← take_append_drop (a + 1 - firstOf es) es]
  rw [filter_append, filter_eq_nil_iff.mpr fun e he => by simpa using Nat.le_of_lt_succ (h.lt_of_mem_take he),
    nil_append, filter_eq_self.mpr]
  exact fun e he => decide_eq_true (h.le_of_mem_drop he)

end Consecutive

theorem consecutive_nil : Consecutive [] := rfl

variable {es es' : List Entry}

theorem firstOf_append (h : es ≠ []) (es' : List Entry) : firstOf (es ++ es') = firstOf es := by
  rw [firstOf, firstOf, head?_append_of_ne_nil es h]

theorem lastOf_append (h : es' ≠ []) (es : List Entry) : lastOf (es ++ es') = lastOf es' := by
  rw [lastOf, lastOf, getLast?_append_of_ne_nil es h]

theorem map_index_eq_iff (hne : es ≠ []) {a : ℕ} :
    es.map Entry.index = range' a es.length ↔ Consecutive es ∧ firstOf es = a := by
  refine ⟨fun h => ?_, fun ⟨h, ha⟩ => ha ▸ h⟩
  obtain ⟨e, es, rfl⟩ := exists_cons_of_ne_nil hne
  have ha : firstOf (e :: es) = a := (cons.inj h).1
  exact ⟨by rw [Consecutive, ha, h], ha⟩

theorem consecutive_append : Consecutive (es ++ es') ↔
    Consecutive es ∧ Consecutive es' ∧ (es ≠ [] → es' ≠ [] → firstOf es' = firstOf es + es.length) := by
  rcases eq_or_ne es [] with rfl | hne
  · simp [consecutive_nil]
  rcases eq_or_ne es' [] with rfl | hne'
  · simp [consecutive_nil]
  rw [Consecutive, map_append, length_append, firstOf_append hne, ← range'_append_1]
  constructor
  · intro h
    obtain ⟨hleft, hright⟩ := append_inj h (by rw [length_map, length_range'])
    obtain ⟨hright, hjoin⟩ := (map_index_eq_iff hne').mp hright
    exact ⟨hleft, hright, fun _ _ => hjoin⟩
  · rintro ⟨hleft, hright, hjoin⟩
    rw [(map_index_eq_iff hne').mpr ⟨hright, hjoin hne hne'⟩, hleft]

theorem firstOf_congr (h : es.map Entry.index = es'.map Entry.index) : firstOf es = firstOf es' := by
  rw [firstOf, firstOf, ← head?_map, ← head?_map, h]

theorem Consecutive.congr (hc : Consecutive es) (h : es.map Entry.index = es'.map Entry.index) : Consecutive es' := by
  have hlen : es.length = es'.length := by simpa using congrArg length h
  rw [Consecutive, ← h, ← firstOf_congr h, ← hlen]
  exact hc

theorem Consecutive.middle {mid : List Entry} (h : Consecutive (es ++ mid ++ es')) (hne : mid ≠ []) :
    Consecutive mid ∧ firstOf mid = firstOf (es ++ mid ++ es') + es.length := by
  obtain ⟨hleft, -, -⟩ := consecutive_append.mp h
  obtain ⟨-, hmid, hjoin⟩ := consecutive_append.mp hleft
  refine ⟨hmid, ?_⟩
  rw [firstOf_append (append_ne_nil_of_right_ne_nil es hne)]
  rcases eq_or_ne es [] with rfl | hes
  · rfl
  · rw [firstOf_append hes, hjoin hes hne]

/-- The ends of what is left of such a list without its first entries. -/
theorem Consecutive.ends_drop (h : Consecutive es) {d : ℕ} (hd : d < es.length) :
    es.drop d ≠ [] ∧ firstOf (es.drop d) = firstOf es + d ∧ lastOf (es.drop d) = lastOf es := by
  have hne : es.drop d ≠ [] := ne_nil_of_length_pos (by rw [length_drop]; omega)
  refine ⟨hne, ?_, ?_⟩
  · rw [firstOf, head?_drop, getElem?_eq_getElem hd]
    exact h.index_getElem hd
  · conv_rhs => rw [← take_append_drop d es, lastOf_append hne]

theorem firstOf_take {n : ℕ} (hn : 0 < n) : firstOf (es.take n) = firstOf es := by
  rw [firstOf, firstOf, head?_take, if_neg (by omega)]

/-! ### A file of the log -/

def maxNumEntries : ℕ := 30000

def logFileOffset : ℕ := 2 ^ 20

def maxLogFileSize : ℕ := 32 * 2 ^ 20

def entrySize : ℕ := 32

def unit32Size : ℕ := 4

/-- An open file, in memory and on disk. -/
structure FileWrap where
  data : Bytes
  disk : Bytes

namespace FileWrap

/-- Open a file; an empty one gets room for the slots. -/
def openFile (disk : Bytes) : FileWrap :=
  if disk = [] then ⟨replicate logFileOffset 0, replicate logFileOffset 0⟩ else ⟨disk, disk⟩

/-- Open the file again. -/
def reopen (f : FileWrap) : FileWrap := openFile f.disk

/-- In memory nothing is written behind the end. -/
def writeAt (f : FileWrap) (offset : ℕ) (dat : Bytes) : FileWrap :=
  ⟨(patch 0 f.data offset dat).take f.data.length, patch 0 f.disk offset dat⟩

/-- Write the length and the data. -/
def writeSlice (f : FileWrap) (offset : ℕ) (dat : Bytes) : FileWrap :=
  ⟨patch 0 f.data offset (beBytes unit32Size dat.length ++ dat),
    patch 0 f.disk offset (beBytes unit32Size dat.length ++ dat)⟩

/-- The length at `offset`. -/
def sliceLength (f : FileWrap) (offset : ℕ) : Option ℕ :=
  if offset + unit32Size ≤ f.data.length then some (beNat (slice f.data offset unit32Size)) else none

def readSlice (f : FileWrap) (offset : ℕ) : Option Bytes := (f.sliceLength offset).map fun sz =>
    if offset + unit32Size + sz > f.data.length then [] else slice f.data (offset + unit32Size) sz

def sliceSize (f : FileWrap) (offset : ℕ) : Option ℕ := (f.sliceLength offset).map (unit32Size + ·)

def truncate (f : FileWrap) (size : ℕ) : FileWrap :=
  { f with disk := f.disk.take size ++ replicate (size - f.disk.length) 0 }

end FileWrap

/-! ### Slots -/

/-- The four numbers of a slot. -/
structure Slot where
  term : ℕ
  index : ℕ
  type : ℕ
  offset : ℕ
deriving DecidableEq

def emptyEntry : Slot := ⟨0, 0, 0, 0⟩

def marshalEntry (term index typ offset : ℕ) : Bytes :=
  beBytes 8 term ++ beBytes 8 index ++ beBytes 8 typ ++ beBytes 8 offset

namespace FileWrap

variable (f : FileWrap)

/-- The number at the given place of a slot. -/
def field (idx k : ℕ) : ℕ := beNat (slice f.data (idx * entrySize + k) 8)

def getEntry (idx : ℕ) : Slot := ⟨f.field idx 0, f.field idx 8, f.field idx 16, f.field idx 24⟩

/-- The entry with its data, if its slot has any. -/
def getRaftEntry (idx : ℕ) : Option Entry :=
  let e := f.getEntry idx
  if 0 < e.offset then
    if e.offset ≥ f.data.length then none
    else (f.readSlice e.offset).map fun data => ⟨e.term, e.index, Int32.ofNat e.type, data⟩
  else some ⟨e.term, e.index, Int32.ofNat e.type, []⟩

def firstIndex : ℕ := (f.getEntry 0).index

def firstEmptySlot : ℕ := sortSearch (fun i => (f.getEntry i).index = 0) 0 maxNumEntries

def lastEntry : Slot := f.getEntry (f.firstEmptySlot - 1)

/-- The slot of the index or of the first one above it; there is none (`-1` in the source) if the index is
below all in the file. -/
def slotGe (raftIndex : ℕ) : Option ℕ :=
  let fi := f.firstIndex
  if fi = 0 ∨ raftIndex < fi then none
  else if raftIndex - fi < maxNumEntries ∧ (f.getEntry (raftIndex - fi)).index = raftIndex then
    some (raftIndex - fi)
  else
    some (sortSearch (fun i => (f.getEntry i).index = 0 ∨ raftIndex ≤ (f.getEntry i).index) 0 maxNumEntries)

/-- Write an entry with its data at `offset`. -/
def putEntry (idx offset : ℕ) (re : Entry) : FileWrap := (f.writeSlice offset re.data).writeAt (idx * entrySize)
    (marshalEntry re.term re.index (uint64 re.type.toInt) offset)

end FileWrap

end GeminiTS.Raft
