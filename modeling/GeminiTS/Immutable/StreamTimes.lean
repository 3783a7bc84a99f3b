import Mathlib

/-!
# StreamTimes — checking the times of a stream compaction

A stream compaction (`engine/immutable/stream_compact.go`) decodes the segments of the time column one after another and
compares the first time of each with the last time of the one before. Before the first segment the last time is 0.

* `decodeTimes_error_iff` — when exactly the segments out of order are refused; `decodeTimes_negative` are two segments
  in order that are.
-/

namespace GeminiTS.Immutable

/-- A decoded segment of the time column. -/
structure TimeSegment where
  times : List Int64
  nonempty : times ≠ []
  ascending : times.Pairwise (· < ·)

namespace TimeSegment

def first (s : TimeSegment) : Int64 := s.times.head s.nonempty

def last (s : TimeSegment) : Int64 := s.times.getLast s.nonempty

/-- The segments do not overlap. -/
def Before (s s' : TimeSegment) : Prop := s.last < s'.first

end TimeSegment

open TimeSegment

/-- The last time and the rows of the column that is compacted. -/
structure StreamIterators where
  maxTime : Int64
  col : List Int64

namespace StreamIterators

def validateTimes (c : StreamIterators) (s : TimeSegment) : Except String StreamIterators :=
  let previous := c.maxTime
  let time := s.first
  if previous ≥ time then
    .error s!"minimum time is earlier than the maximum time of the previous segment: {previous} >= {time}"
  else .ok { c with maxTime := s.last }

/-- `decodeSegment` of the time column. -/
def decodeSegment (c : StreamIterators) (s : TimeSegment) : Except String StreamIterators := do
  let c ← c.validateTimes s
  return { c with col := c.col ++ s.times }

/-- What `compactColumn` decodes, behind the rows that are left from the last segment. -/
def decodeTimes (rest : List Int64) (segments : List TimeSegment) : Except String StreamIterators :=
  segments.foldlM decodeSegment ⟨0, rest⟩

variable {c : StreamIterators} {s : TimeSegment}

theorem decodeSegment_of_lt (h : c.maxTime < s.first) : c.decodeSegment s = .ok ⟨s.last, c.col ++ s.times⟩ := by
  rw [decodeSegment, validateTimes, if_neg (Int64.not_le.mpr h)]
  rfl

theorem decodeSegment_of_le (h : s.first ≤ c.maxTime) : ∃ e, c.decodeSegment s = .error e := by
  rw [decodeSegment, validateTimes, if_pos h]
  exact ⟨_, rfl⟩

/-- The segments are accepted if they are in order and the first one is behind the last time. -/
theorem foldlM_error_iff (segments : List TimeSegment) (c : StreamIterators) :
    (∃ e, segments.foldlM decodeSegment c = .error e) ↔
      ¬ (segments.IsChain Before ∧ ∀ s ∈ segments.head?, c.maxTime < s.first) := by
  induction segments generalizing c with
  | nil =>
    constructor
    · rintro ⟨e, he⟩
      cases he
    · intro h
      exact absurd ⟨.nil, by simp⟩ h
  | cons s segments ih =>
    rw [List.foldlM_cons, List.head?_cons, List.isChain_cons]
    by_cases hlt : c.maxTime < s.first
    · rw [decodeSegment_of_lt hlt]
      refine (ih ⟨s.last, c.col ++ s.times⟩).trans (not_congr ?_)
      simp [hlt, and_comm, Before]
    · obtain ⟨e, he⟩ := decodeSegment_of_le (Int64.not_lt.mp hlt)
      rw [he]
      simpa [hlt] using ⟨e, rfl⟩

/-- **Refusing what is out of order**: exactly those segments are refused, unless they are in order and begin at time 0
or before. -/
theorem decodeTimes_error_iff (rest : List Int64) (segments : List TimeSegment) :
    ((∃ e, decodeTimes rest segments = .error e) ↔ ¬ segments.IsChain Before) ↔
      (segments.IsChain Before → ∀ s ∈ segments.head?, 0 < s.first) := by
  rw [decodeTimes, foldlM_error_iff]
  tauto

/-- Two segments in order, the first one before 1970. -/
theorem decodeTimes_negative :
    let segments : List TimeSegment := [⟨[-5, -3], by decide, by decide⟩, ⟨[2], by decide, by decide⟩]
    segments.IsChain Before ∧ ∃ e, decodeTimes [] segments = .error e := by
  refine ⟨?_, _, rfl⟩
  rw [List.isChain_pair, Before]
  decide

end StreamIterators

end GeminiTS.Immutable
