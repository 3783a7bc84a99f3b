import GeminiTS.Raft.LogFile

/-!
# EntryLog — the raft log on disk

`entryLog` of `lib/raftlog/entrylog.go`: full files in the order of their indexes and the file that is
written to. In file and slot positions `none` is the source's `-1`: the current file, or an index
below all that are held. Files are kept apart by their place in the list; the numbers in their names are
not modelled.
-/

namespace GeminiTS.Raft

open Lib

structure EntryLog where
  files : List FileWrap
  current : FileWrap
  nextEntryIdx : ℕ

/-- Why an entry is not found. -/
inductive SeekError
  | compacted
  | unavailable
  | notFound
deriving DecidableEq

namespace EntryLog

variable (l : EntryLog)

/-! ### Reading -/

/-- The file and the slot of an index. -/
def slotGe (raftIndex : ℕ) : Option ℕ × Option ℕ :=
  match l.current.slotGe raftIndex with
  | some offset => (none, some offset)
  | none =>
    if l.files.isEmpty then (none, none)
    else
      let fileIdx := sortSearch (fun i => l.files[i]?.any fun f => raftIndex ≤ f.firstIndex) 0 l.files.length
      if l.files[fileIdx]?.any fun f => f.firstIndex = raftIndex then (some fileIdx, some 0)
      else (some (fileIdx - 1), l.files[fileIdx - 1]?.bind fun f => f.slotGe raftIndex)

def getEntryFile : Option ℕ → Option FileWrap
  | none => some l.current
  | some fidx => l.files[fidx]?

/-- The files from a position on. -/
def filesFrom : Option ℕ → List FileWrap
  | none => [l.current]
  | some fidx => l.files.drop fidx ++ [l.current]

/-- The loop of `allEntries` over the files that are left, from a slot of the first one on. -/
def readEntries (size : Entry → ℕ) (hi maxSize : ℕ) (files : List FileWrap) (offset total : ℕ)
    (entries : List Entry) : Option (List Entry) :=
  match files with
  | [] => some entries
  | f :: fs =>
    if _h : maxNumEntries ≤ offset then readEntries size hi maxSize fs 0 total entries
    else
      (f.getRaftEntry offset).bind fun re =>
        if hi ≤ re.index then some entries
        else if re.index = 0 then readEntries size hi maxSize fs 0 total entries
        else
          if entries ≠ [] ∧ maxSize < (total + size re) % 2 ^ 64 then some entries
          else readEntries size hi maxSize (f :: fs) (offset + 1) ((total + size re) % 2 ^ 64) (entries ++ [re])
termination_by (files.length, maxNumEntries - offset)

/-- The entries from `lo` on and below `hi`; `size` is that of an encoded entry. -/
def allEntries (size : Entry → ℕ) (lo hi maxSize : ℕ) : Option (List Entry) :=
  match l.slotGe lo with
  | (fileIdx, offset) => readEntries size hi maxSize (l.filesFrom fileIdx) (offset.getD 0) 0 []

def seekEntry (raftIndex : ℕ) : Except SeekError Slot :=
  if raftIndex = 0 then .ok emptyEntry
  else
    match l.slotGe raftIndex with
    | (_, none) => .error .compacted
    | (fidx, some off) =>
      if maxNumEntries ≤ off then .error .unavailable
      else
        let ent := (l.getEntryFile fidx).elim emptyEntry fun f => f.getEntry off
        if ent.index = 0 then .error .unavailable
        else if ent.index ≠ raftIndex then .error .notFound
        else .ok ent

def term (idx : ℕ) : Except SeekError ℕ := (l.seekEntry idx).map Slot.term

def firstIndex : ℕ :=
  let fi := ((l.files.head?.getD l.current).getEntry 0).index
  if fi = 0 then 1 else fi

def lastIndex : ℕ :=
  if 0 < l.nextEntryIdx then (l.current.getEntry (l.nextEntryIdx - 1)).index
  else ((l.files.reverse.map fun f => f.lastEntry.index).find? (0 < ·)).getD 0

/-! ### Writing -/

/-- Remove the entry with the given index and all after it. In a full file all slots up to the data are
written over, and the files after it are deleted. -/
def removeFrom (raftIndex : ℕ) : Option EntryLog :=
  match l.slotGe raftIndex with
  | (_, none) => some l
  | (none, some lastIdx) =>
    some ⟨l.files,
      if lastIdx < l.nextEntryIdx then
        l.current.writeSlice (entrySize * lastIdx) (List.replicate (entrySize * l.nextEntryIdx - entrySize * lastIdx) 0)
      else l.current, lastIdx⟩
  | (some firstIdx, some lastIdx) =>
    l.files[firstIdx]?.map fun f =>
      ⟨l.files.take firstIdx,
        f.writeSlice (entrySize * lastIdx) (List.replicate (logFileOffset - entrySize * lastIdx) 0), lastIdx⟩

/-- Where the data of the next entry goes. -/
def startOffset : Option ℕ :=
  if 0 < l.nextEntryIdx then
    let offset := (l.current.getEntry (l.nextEntryIdx - 1)).offset
    (l.current.sliceSize offset).map (offset + ·)
  else some logFileOffset

/-- Close the current file and go on with a new one. -/
def rotate (offset : ℕ) : EntryLog := ⟨l.files ++ [l.current.truncate offset], FileWrap.openFile [], 0⟩

/-- Write an entry at `offset`. -/
def write (offset : ℕ) (re : Entry) : EntryLog :=
  ⟨l.files, l.current.putEntry l.nextEntryIdx offset re, l.nextEntryIdx + 1⟩

/-- Write entry after entry, the data of the first one at `offset`. -/
def writeAll (l : EntryLog) (offset : ℕ) : List Entry → EntryLog
  | [] => l
  | re :: res =>
    if maxNumEntries ≤ l.nextEntryIdx ∨ maxLogFileSize < offset + unit32Size + re.data.length then
      writeAll ((l.rotate offset).write logFileOffset re) (logFileOffset + unit32Size + re.data.length) res
    else writeAll (l.write offset re) (offset + unit32Size + re.data.length) res

def addEntries : List Entry → Option EntryLog
  | [] => some l
  | re :: res => do
    let l ← l.removeFrom re.index
    let offset ← l.startOffset
    return l.writeAll offset (re :: res)

/-- Delete the files before the one with the index. -/
def deleteBefore (raftIndex : ℕ) : EntryLog :=
  match l.slotGe raftIndex with
  | (_, none) => l
  | (none, some _) => { l with files := [] }
  | (some fidx, some _) => if l.files.length ≤ fidx then l else { l with files := l.files.drop fidx }

/-! ### Opening -/

/-- Open the files of a directory in the order of their first indexes, without the empty ones. -/
def openEntryLogs (dir : List Bytes) : EntryLog :=
  let files := (stableSort FileWrap.firstIndex (dir.map FileWrap.openFile)).filter fun f => f.firstIndex ≠ 0
  match files.getLast? with
  | some current => ⟨files.dropLast, current, current.firstEmptySlot⟩
  | none => ⟨[], FileWrap.openFile [], 0⟩

/-- The directory. -/
def dir : List Bytes := (l.files ++ [l.current]).map FileWrap.disk

end EntryLog

end GeminiTS.Raft
