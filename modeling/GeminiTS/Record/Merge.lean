import GeminiTS.Record.Columns
import GeminiTS.Record.TimeSearch

/-!
# Merge — merging two records from given positions, at most `limitRows` rows at a time

The merges of `lib/record/record.go`. A merge starts at `newPos` in the new record and at `oldPos`
in the old one and answers with the merged record and the positions it reached in both; `none`
stands for an index out of range.
-/

namespace GeminiTS

open Lib

namespace Record

variable {F V : Type*} [LinearOrder F]

/-- The row loop of `appendRecs`; every turn appends one row and counts `limitRows` down. -/
def appendRecsLoop (ascending : Bool) (new old : Record F V) (newTimes oldTimes : List ℤ)
    (newEnd oldEnd : ℕ) : ℕ → Record F V → ℕ → ℕ → ℕ → Option (Record F V × ℕ × ℕ × ℕ)
  | 0, rec, newStart, oldStart, limitRows => some (rec, limitRows, newStart, oldStart)
  | turns + 1, rec, newStart, oldStart, limitRows =>
    if newStart < newEnd ∧ oldStart < oldEnd then
      match newTimes[newStart]?, oldTimes[oldStart]? with
      | some tNew, some tOld =>
        let next :=
          if before ascending tOld tNew then
            (rec.appendRec old oldStart (oldStart + 1), newStart, oldStart + 1)
          else if before ascending tNew tOld then
            (rec.appendRec new newStart (newStart + 1), newStart + 1, oldStart)
          else (rec.mergeRecRow new old newStart oldStart, newStart + 1, oldStart + 1)
        if limitRows - 1 = 0 then some (next.1, 0, next.2.1, next.2.2)
        else appendRecsLoop ascending new old newTimes oldTimes newEnd oldEnd turns
          next.1 next.2.1 next.2.2 (limitRows - 1)
      | _, _ => none
    else some (rec, limitRows, newStart, oldStart)

/-- Merge rows `[newStart, newEnd)` and `[oldStart, oldEnd)`; answers with the record, the rows
still allowed and the positions reached. -/
def appendRecs (ascending : Bool) (rec new old : Record F V) (newStart newEnd oldStart oldEnd : ℕ)
    (newTimes oldTimes : List ℤ) (limitRows : ℕ) : Option (Record F V × ℕ × ℕ × ℕ) :=
  match appendRecsLoop ascending new old newTimes oldTimes newEnd oldEnd
      ((newEnd - newStart) + (oldEnd - oldStart)) rec newStart oldStart limitRows with
  | none => none
  | some (rec, limitRows, newStart, oldStart) =>
    if limitRows = 0 then some (rec, 0, newStart, oldStart)
    else if newStart < newEnd then
      if limitRows ≤ newEnd - newStart then
        some (rec.appendRec new newStart (newStart + limitRows), 0, newStart + limitRows, oldStart)
      else some (rec.appendRec new newStart newEnd, limitRows - (newEnd - newStart), newEnd, oldEnd)
    else if oldStart < oldEnd then
      if limitRows ≤ oldEnd - oldStart then
        some (rec.appendRec old oldStart (oldStart + limitRows), 0, newStart, oldStart + limitRows)
      else some (rec.appendRec old oldStart oldEnd, limitRows - (oldEnd - oldStart), newEnd, oldEnd)
    else some (rec, limitRows, newEnd, oldEnd)

/-- The part of `mergeRecordOverlapImpl` after the overlapping ranges. -/
def mergeRecordTail (rec new old : Record F V) (newEnd oldEnd newRows oldRows limitRows : ℕ) : Record F V × ℕ × ℕ :=
  if oldEnd = oldRows then
    if limitRows ≤ newRows - newEnd then
      (rec.appendRec new newEnd (newEnd + limitRows), newEnd + limitRows, oldEnd)
    else (rec.appendRec new newEnd newRows, newRows, oldRows)
  else if limitRows ≤ oldRows - oldEnd then
    (rec.appendRec old oldEnd (oldEnd + limitRows), newEnd, oldEnd + limitRows)
  else (rec.appendRec old oldEnd oldRows, newRows, oldRows)

/-- The part of `mergeRecordOverlapImpl` from the overlapping ranges on. -/
def mergeRecordRest (ascending : Bool) (rec new old : Record F V)
    (newOpStart newOpEnd oldOpStart oldOpEnd : ℕ) (newTimes oldTimes : List ℤ)
    (newRows oldRows limitRows : ℕ) : Option (Record F V × ℕ × ℕ) :=
  match appendRecs ascending rec new old newOpStart newOpEnd oldOpStart oldOpEnd newTimes oldTimes limitRows with
  | none => none
  | some (rec, limitRows, newEnd, oldEnd) =>
    if limitRows = 0 then some (rec, newEnd, oldEnd)
    else some (mergeRecordTail rec new old newEnd oldEnd newRows oldRows limitRows)

/-- The rows in front of the overlapping ranges, the merge of those ranges, the rows behind. -/
def mergeRecordOverlapImpl (rec new old : Record F V) (newOpStart newOpEnd oldOpStart oldOpEnd : ℕ)
    (newTimes oldTimes : List ℤ) (newPos oldPos newRows oldRows limitRows : ℕ)
    (ascending : Bool) : Option (Record F V × ℕ × ℕ) :=
  let newOpEnd := min newOpEnd newRows
  let oldOpEnd := min oldOpEnd oldRows
  if oldOpStart = oldPos then
    if limitRows ≤ newOpStart - newPos then
      some (rec.appendRec new newPos (newPos + limitRows), newPos + limitRows, oldPos)
    else
      mergeRecordRest ascending (rec.appendRec new newPos newOpStart) new old newOpStart newOpEnd
        oldOpStart oldOpEnd newTimes oldTimes newRows oldRows (limitRows - (newOpStart - newPos))
  else
    if limitRows ≤ oldOpStart - oldPos then
      some (rec.appendRec old oldPos (oldPos + limitRows), newPos, oldPos + limitRows)
    else
      mergeRecordRest ascending (rec.appendRec old oldPos oldOpStart) new old newOpStart newOpEnd
        oldOpStart oldOpEnd newTimes oldTimes newRows oldRows (limitRows - (oldOpStart - oldPos))

def mergeRecordOverlap (new old : Record F V) (newTimes oldTimes : List ℤ)
    (newPos oldPos newRows oldRows limitRows : ℕ) : Option (Record F V × ℕ × ℕ) :=
  match newTimes[newPos]?, oldTimes[oldPos]?, newTimes[newRows - 1]?, oldTimes[oldRows - 1]? with
  | some newFirst, some oldFirst, some newLast, some oldLast =>
    let merge (newOpStart newOpEnd oldOpStart oldOpEnd : ℕ) :=
      mergeRecordOverlapImpl (ofSchema (mergeRecordSchema new.schema old.schema)) new old
        newOpStart newOpEnd oldOpStart oldOpEnd newTimes oldTimes newPos oldPos newRows oldRows
        limitRows true
    if newFirst < oldFirst then
      if newLast ≤ oldLast then
        merge (getTimeRangeStartIndex newTimes newPos oldFirst) newRows
          oldPos (getTimeRangeStartIndex oldTimes oldPos newLast + 1)
      else
        merge (getTimeRangeStartIndex newTimes newPos oldFirst)
          (getTimeRangeStartIndex newTimes newPos oldLast + 1) oldPos oldRows
    else
      if newLast ≤ oldLast then
        merge newPos newRows (getTimeRangeStartIndex oldTimes oldPos newFirst)
          (getTimeRangeStartIndex oldTimes oldPos (int64 (newLast + 1)))
      else
        merge newPos (getTimeRangeStartIndex newTimes newPos oldLast + 1)
          (getTimeRangeStartIndex oldTimes oldPos newFirst) oldRows
  | _, _, _, _ => none

def mergeRecordOverlapDescend (new old : Record F V) (newTimes oldTimes : List ℤ)
    (newPos oldPos newRows oldRows limitRows : ℕ) : Option (Record F V × ℕ × ℕ) :=
  match newTimes[newPos]?, oldTimes[oldPos]?, newTimes[newRows - 1]?, oldTimes[oldRows - 1]? with
  | some newFirst, some oldFirst, some newLast, some oldLast =>
    let merge (newOpStart newOpEnd oldOpStart oldOpEnd : ℕ) :=
      mergeRecordOverlapImpl (ofSchema (mergeRecordSchema new.schema old.schema)) new old
        newOpStart newOpEnd oldOpStart oldOpEnd newTimes oldTimes newPos oldPos newRows oldRows
        limitRows false
    if newLast < oldLast then
      if newFirst ≤ oldFirst then
        merge newPos (getTimeRangeStartIndexDescend newTimes newPos oldLast + 1)
          (getTimeRangeStartIndexDescend oldTimes oldPos newFirst) oldRows
      else
        merge (getTimeRangeStartIndexDescend newTimes newPos oldFirst)
          (getTimeRangeStartIndexDescend newTimes newPos oldLast + 1) oldPos oldRows
    else
      if oldFirst ≤ newFirst then
        merge (getTimeRangeStartIndexDescend newTimes newPos oldFirst) newRows
          oldPos (getTimeRangeStartIndexDescend oldTimes oldPos newLast + 1)
      else
        merge newPos newRows (getTimeRangeStartIndexDescend oldTimes oldPos newFirst)
          (getTimeRangeStartIndexDescend oldTimes oldPos newLast + 1)
  | _, _, _, _ => none

/-- All of `old` lies in front of `new`: rows of `old` first, then rows of `new`. -/
def mergeRecordNonOverlap (new old : Record F V) (newPos oldPos newRows oldRows limitRows : ℕ) : Record F V × ℕ × ℕ :=
  if oldRows - oldPos < limitRows then
    let limitRows := limitRows - (oldRows - oldPos)
    let newEnd := if newRows - newPos ≤ limitRows then newRows else newPos + limitRows
    (nonOverlap new old newPos newEnd oldPos oldRows, newEnd, oldRows)
  else (nonOverlap new old newPos newPos oldPos (oldPos + limitRows), newPos, oldPos + limitRows)

/-- The three cases of a merge of all rows: `old` in front of `new`, `new` in front of `old`, or
overlapping (`MergeRecordLimitRows` and `MergeRecordLimitRowsDescend`). -/
def mergeRecordLimit (ascending : Bool) (overlap : Record F V → Record F V → List ℤ → List ℤ → ℕ → ℕ → ℕ → ℕ → ℕ →
      Option (Record F V × ℕ × ℕ))
    (new old : Record F V) (newPos oldPos limitRows : ℕ) : Option (Record F V × ℕ × ℕ) :=
  match new.times[newPos]?, old.times[oldPos]?, new.times.getLast?, old.times.getLast? with
  | some newFirst, some oldFirst, some newLast, some oldLast =>
    if before ascending oldLast newFirst then
      some (mergeRecordNonOverlap new old newPos oldPos new.rowNums old.rowNums limitRows)
    else if before ascending newLast oldFirst then
      let (rec, oldEnd, newEnd) := mergeRecordNonOverlap old new oldPos newPos old.rowNums new.rowNums limitRows
      some (rec, newEnd, oldEnd)
    else overlap new old new.times old.times newPos oldPos new.rowNums old.rowNums limitRows
  | _, _, _, _ => none

def mergeRecordLimitRows : Record F V → Record F V → ℕ → ℕ → ℕ → Option (Record F V × ℕ × ℕ) :=
  mergeRecordLimit true mergeRecordOverlap

def mergeRecordLimitRowsDescend : Record F V → Record F V → ℕ → ℕ → ℕ → Option (Record F V × ℕ × ℕ) :=
  mergeRecordLimit false mergeRecordOverlapDescend

/-- As `mergeRecordLimit`, but no row of `new` past the last row of `old` is taken. -/
def mergeRecordByMaxTimeOfOldRec (new old : Record F V) (newPos oldPos limitRows : ℕ)
    (ascending : Bool) : Option (Record F V × ℕ × ℕ) :=
  match new.times[newPos]?, old.times[oldPos]?, new.times.getLast?, old.times.getLast? with
  | some newFirst, some oldFirst, some newLast, some oldLast =>
    let restOfOld := some ((ofSchema old.schema).appendRec old oldPos old.rowNums, newPos, old.rowNums)
    let newInFront :=
      let (rec, oldEnd, newEnd) := mergeRecordNonOverlap old new oldPos newPos old.rowNums new.rowNums limitRows
      some (rec, newEnd, oldEnd)
    if ascending then
      if oldLast < newFirst then restOfOld
      else if newLast < oldFirst then newInFront
      else
        let newRows := (getTimeRangeEndIndex new.times newPos oldLast + 1).toNat
        mergeRecordOverlap new old (new.times.take newRows) old.times newPos oldPos newRows old.rowNums limitRows
    else
      if oldFirst < newLast then newInFront
      else if newFirst < oldLast then restOfOld
      else
        let newRows := (getTimeRangeEndIndexDescend new.times newPos oldLast + 1).toNat
        mergeRecordOverlapDescend new old (new.times.take newRows) old.times newPos oldPos newRows old.rowNums limitRows
  | _, _, _, _ => none

end Record

end GeminiTS
