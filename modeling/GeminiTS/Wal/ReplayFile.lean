import GeminiTS.Lib.Bytes
import GeminiTS.Lib.Extract

/-!
# ReplayFile — records of the write-ahead log, and replaying a file that ends early

`writeBinary`, `replayPhysicRecord` and `replayWalFile` of `engine/wal.go`. A record is a type byte, the
length of its body in four bytes, and the body, which is compressed. Bodies are read into a buffer
from a pool whose old bytes stay where they are.

* `replayWalFile_take_iff` — when it replays exactly its complete records; `cutAfterHeader_repeats` is
  a file that replays a record twice.
-/

namespace GeminiTS.Wal

open Lib

/-- `snappy`, and the reading of rows in line protocol. -/
structure Codec (R : Type*) where
  encode : Bytes → Bytes
  decode : Bytes → Option Bytes
  unmarshalRows : Bytes → Option (List R)
  encode_ne_nil : ∀ b, encode b ≠ []
  decode_eq_some : ∀ {c b}, decode c = some b ↔ c = encode b

/-- The known types of records. -/
inductive WalRecordType
  | lineProtocol
  | arrowFlight
deriving DecidableEq

namespace WalRecordType

def toByte : WalRecordType → UInt8
  | lineProtocol => 1
  | arrowFlight => 2

def ofByte (b : UInt8) : Option WalRecordType :=
  if b = 1 then some lineProtocol else if b = 2 then some arrowFlight else none

@[simp] theorem ofByte_toByte (t : WalRecordType) : ofByte t.toByte = some t := by
  cases t <;> rfl

end WalRecordType

/-- What is handed to the callback: rows in line protocol, the bytes otherwise. -/
structure WalRecord (R : Type*) where
  writeWalType : WalRecordType
  binary : Bytes
  rowsObjs : Option (List R)
deriving DecidableEq

variable {R : Type*} (cd : Codec R)

/-- A record as the writer is given it; its length fits the header, and rows can be read back. -/
structure LogRecord where
  writeWalType : WalRecordType
  binary : Bytes
  length_lt : (cd.encode binary).length < 2 ^ 32
  readable : writeWalType = .lineProtocol → (cd.unmarshalRows binary).isSome

def walRecordHeadSize : ℕ := 1 + 4

/-- The header and the compressed body. -/
def LogRecord.bytes {cd : Codec R} (r : LogRecord cd) : Bytes :=
  r.writeWalType.toByte :: beBytes 4 (cd.encode r.binary).length ++ cd.encode r.binary

/-! ### Reading -/

/-- How a read of a full buffer ends. -/
inductive ReadStatus
  | ok
  | eof
  | unexpectedEOF
deriving DecidableEq

/-- `io.ReadFull`: the buffer, the bytes not read yet, and how it ended. -/
def readFull (fr buf : Bytes) : Bytes × Bytes × ReadStatus :=
  (fr.take buf.length ++ buf.drop fr.length, fr.drop buf.length,
    if buf.length ≤ fr.length then .ok else if fr = [] then .eof else .unexpectedEOF)

/-- `bufferpool.Resize`: all bytes the buffer has room for stay, new ones are zero. -/
def resize (mem : Bytes) (n : ℕ) : Bytes := mem ++ List.replicate (n - mem.length) 0

/-- The record of a decoded body. -/
def walRecordOf (t : WalRecordType) (binary : Bytes) : Option (WalRecord R) :=
  match t with
  | .lineProtocol => (cd.unmarshalRows binary).map fun rows => ⟨t, [], some rows⟩
  | .arrowFlight => some ⟨t, binary, none⟩

/-- What one attempt to read a record leaves: the bytes not read yet, the buffer, and the record the
callback was called with. If there is none the file is done. -/
structure Replayed (R : Type*) where
  fr : Bytes
  mem : Bytes
  called : Option (WalRecord R)

/-- The body, read over the first `n` bytes of the buffer. A read that finds the end of the file at once
counts as a read. -/
def replayBody (t : WalRecordType) (n : ℕ) (fr mem : Bytes) : Replayed R :=
  match readFull fr (mem.take n) with
  | (body, rest, status) =>
    ⟨rest, body ++ mem.drop n,
      if status = .ok ∨ status = .eof then (cd.decode body).bind (walRecordOf cd t) else none⟩

def replayPhysicRecord (fr mem : Bytes) : Replayed R :=
  match readFull fr (List.replicate walRecordHeadSize 0) with
  | (header, rest, status) =>
    match status, WalRecordType.ofByte (header.headD 0) with
    | .ok, some t => replayBody cd t (beNat (header.drop 1)) rest (resize mem (beNat (header.drop 1)))
    | _, _ => ⟨rest, mem, none⟩

variable {fr : Bytes} {wr : WalRecord R}

theorem replayPhysicRecord_fr_length {mem : Bytes} (h : (replayPhysicRecord cd fr mem).called = some wr) :
    (replayPhysicRecord cd fr mem).fr.length < fr.length := by
  simp only [replayPhysicRecord, readFull] at h ⊢
  split at h
  · rename_i t hok _
    have hlen : walRecordHeadSize ≤ fr.length := by
      by_contra hlt
      rw [List.length_replicate] at hok
      split_ifs at hok
    simp only [replayBody, readFull, List.length_drop, List.length_replicate]
    unfold walRecordHeadSize at *
    omega
  · exact absurd h (by simp)

/-- The records the callback is called with, one after another. -/
def replayWalFile (fr mem : Bytes) : List (WalRecord R) :=
  match _h : (replayPhysicRecord cd fr mem).called with
  | none => []
  | some wr => wr :: replayWalFile (replayPhysicRecord cd fr mem).fr (replayPhysicRecord cd fr mem).mem
termination_by fr.length
decreasing_by exact replayPhysicRecord_fr_length cd _h

theorem replayWalFile_of_none {mem : Bytes} (h : (replayPhysicRecord cd fr mem).called = none) :
    replayWalFile cd fr mem = [] := by
  rw [replayWalFile]
  split
  · rfl
  · rename_i h'
    rw [h] at h'
    cases h'

theorem replayWalFile_of_some {mem : Bytes} (h : (replayPhysicRecord cd fr mem).called = some wr) :
    replayWalFile cd fr mem =
      wr :: replayWalFile cd (replayPhysicRecord cd fr mem).fr (replayPhysicRecord cd fr mem).mem := by
  rw [replayWalFile]
  split
  · rename_i h'
    rw [h] at h'
    cases h'
  · rename_i h'
    rw [h] at h'
    cases h'
    rfl

/-! ### A file that ends early -/

open List

variable {R : Type*} {cd : Codec R}

/-- The compressed body. -/
def LogRecord.body (r : LogRecord cd) : Bytes := cd.encode r.binary

/-- The record the callback is to be called with. -/
def LogRecord.delivered (r : LogRecord cd) : WalRecord R :=
  match r.writeWalType with
  | .lineProtocol => ⟨.lineProtocol, [], cd.unmarshalRows r.binary⟩
  | .arrowFlight => ⟨.arrowFlight, r.binary, none⟩

def fileBytes (rs : List (LogRecord cd)) : Bytes := rs.flatMap LogRecord.bytes

/-- The records wholly contained in the first `cut` bytes of the file. -/
def complete : List (LogRecord cd) → ℕ → List (LogRecord cd)
  | [], _ => []
  | r :: rs, cut => if r.bytes.length ≤ cut then r :: complete rs (cut - r.bytes.length) else []

/-- The buffer after the bodies of records have been read into it. -/
def bufferAfter (mem : Bytes) (rs : List (LogRecord cd)) : Bytes :=
  rs.foldl (fun mem r => r.body ++ mem.drop r.body.length) mem

/-- The first `n` bytes of the buffer as they are before a read. -/
def leftover (mem : Bytes) (n : ℕ) : Bytes := (resize mem n).take n

/-- The record the buffer holds when the file ends right after a header. -/
def stale (r : LogRecord cd) (mem : Bytes) : Option (WalRecord R) :=
  (cd.decode (leftover mem r.body.length)).bind (walRecordOf cd r.writeWalType)

/-! ### One record -/

theorem length_resize (mem : Bytes) (n : ℕ) : n ≤ (resize mem n).length := by
  rw [resize, length_append, length_replicate]
  omega

theorem drop_resize (mem : Bytes) (n : ℕ) : (resize mem n).drop n = mem.drop n := by
  rw [resize, drop_append, drop_replicate, Nat.sub_self, replicate_zero, append_nil]

variable (r : LogRecord cd)

theorem LogRecord.walRecordOf_eq : walRecordOf cd r.writeWalType r.binary = some r.delivered := by
  have hread := r.readable
  unfold walRecordOf delivered
  cases ht : r.writeWalType with
  | lineProtocol =>
    obtain ⟨rows, hrows⟩ := Option.isSome_iff_exists.mp (hread ht)
    simp [hrows]
  | arrowFlight => rfl

theorem LogRecord.length_bytes : r.bytes.length = walRecordHeadSize + r.body.length := by
  simp [bytes, body, walRecordHeadSize]
  omega

/-- The header of a record. -/
def LogRecord.header (r : LogRecord cd) : Bytes := r.writeWalType.toByte :: beBytes 4 r.body.length

theorem LogRecord.bytes_eq : r.bytes = r.header ++ r.body := rfl

theorem LogRecord.length_header : r.header.length = walRecordHeadSize := by
  simp [header, walRecordHeadSize]

theorem readFull_append {rest buf : Bytes} (h : fr.length = buf.length) :
    readFull (fr ++ rest) buf = (fr, rest, .ok) := by
  have hdrop : buf.drop (fr ++ rest).length = [] := drop_eq_nil_of_le (by simp [h])
  rw [readFull, hdrop, ← h, take_left', drop_left', if_pos (by simp), append_nil] <;> rfl

theorem replayPhysicRecord_header (rest mem : Bytes) : replayPhysicRecord cd (r.header ++ rest) mem =
      replayBody cd r.writeWalType r.body.length rest (resize mem r.body.length) := by
  have hlen : r.header.length = (replicate walRecordHeadSize 0).length := by
    rw [r.length_header, length_replicate]
  have hbody : beNat (r.header.drop 1) = r.body.length := beNat_beBytes r.length_lt
  have htype : WalRecordType.ofByte (r.header.headD 0) = some r.writeWalType :=
    WalRecordType.ofByte_toByte r.writeWalType
  rw [replayPhysicRecord, readFull_append hlen]
  simp only [htype, hbody]

theorem replayPhysicRecord_of_short (h : fr.length < walRecordHeadSize) (mem : Bytes) :
    (replayPhysicRecord cd fr mem).called = none := by
  have hstatus : (readFull fr (replicate walRecordHeadSize 0)).2.2 ≠ .ok := by
    rw [readFull, length_replicate, if_neg (by omega)]
    split_ifs <;> simp
  rw [replayPhysicRecord]
  split
  rename_i header rest status hread
  rw [hread] at hstatus
  cases status with
  | ok => exact absurd rfl hstatus
  | eof | unexpectedEOF => rfl

/-- **A complete record** is handed over, and its body is left in the buffer. -/
theorem replayPhysicRecord_bytes (rest mem : Bytes) : replayPhysicRecord cd (r.bytes ++ rest) mem =
      ⟨rest, r.body ++ mem.drop r.body.length, some r.delivered⟩ := by
  have hlen : r.body.length = ((resize mem r.body.length).take r.body.length).length := by
    rw [length_take, min_eq_left (length_resize mem r.body.length)]
  have hdecode : cd.decode r.body = some r.binary := cd.decode_eq_some.mpr rfl
  rw [r.bytes_eq, append_assoc, replayPhysicRecord_header, replayBody, readFull_append hlen]
  simp only [true_or, if_true, hdecode, Option.bind_some, r.walRecordOf_eq, drop_resize]

/-- A file that ends right after a header: what is in the buffer is taken for the body. -/
theorem replayPhysicRecord_header_only (mem : Bytes) :
    (replayPhysicRecord cd r.header mem).called = stale r mem ∧ (replayPhysicRecord cd r.header mem).fr = [] := by
  have hread : readFull [] (leftover mem r.body.length) = (leftover mem r.body.length, [], .eof) := by
    have hpos : 0 < r.body.length := length_pos_iff.mpr (cd.encode_ne_nil r.binary)
    have hlen : (leftover mem r.body.length).length = r.body.length := by
      rw [leftover, length_take, min_eq_left (length_resize mem r.body.length)]
    rw [readFull, if_neg (by rw [length_nil]; omega)]
    simp
  have h := replayPhysicRecord_header r [] mem
  rw [append_nil, replayBody, ← leftover, hread] at h
  rw [h]
  exact ⟨by simp [stale], rfl⟩

theorem replayPhysicRecord_of_part {part : Bytes} (hne : part ≠ []) (hlt : part.length < r.body.length) (mem : Bytes) :
    (replayPhysicRecord cd (r.header ++ part) mem).called = none := by
  have hstatus : (readFull part (leftover mem r.body.length)).2.2 = .unexpectedEOF := by
    have hlen : (leftover mem r.body.length).length = r.body.length := by
      rw [leftover, length_take, min_eq_left (length_resize mem r.body.length)]
    rw [readFull, if_neg (by omega), if_neg hne]
  rw [replayPhysicRecord_header, replayBody, ← leftover]
  simp [hstatus]

/-! ### A file -/

/-- The record replayed beyond the complete ones when the first `cut` bytes of a file are replayed. -/
def staleAt : List (LogRecord cd) → ℕ → Bytes → Option (WalRecord R)
  | [], _, _ => none
  | r :: rs, cut, mem =>
    if r.bytes.length ≤ cut then staleAt rs (cut - r.bytes.length) (r.body ++ mem.drop r.body.length)
    else if cut = walRecordHeadSize then stale r mem
    else none

/-- The file is cut right after the header of a record while the buffer holds a body. -/
def ReplaysStale (rs : List (LogRecord cd)) (cut : ℕ) (mem : Bytes) : Prop :=
  ∃ done r rest, rs = done ++ r :: rest ∧ cut = (fileBytes done).length + walRecordHeadSize ∧
    (stale r (bufferAfter mem done)).isSome

theorem replayWalFile_nil (mem : Bytes) : replayWalFile cd [] mem = [] :=
  replayWalFile_of_none cd (replayPhysicRecord_of_short (by decide) mem)

variable (rs : List (LogRecord cd)) (cut : ℕ)

/-- **A file cut anywhere** replays its complete records and at most one more. -/
theorem replayWalFile_take (mem : Bytes) : replayWalFile cd ((fileBytes rs).take cut) mem =
      (complete rs cut).map LogRecord.delivered ++ (staleAt rs cut mem).toList := by
  induction rs generalizing cut mem with
  | nil => simpa [fileBytes, complete, staleAt] using replayWalFile_nil mem
  | cons r rs ih =>
    have hlen := r.length_bytes
    have hhead := r.length_header
    rw [fileBytes, flatMap_cons, ← fileBytes, complete, staleAt]
    split_ifs with hfit hcut
    · -- the record is complete
      have hstep := replayPhysicRecord_bytes r ((fileBytes rs).take (cut - r.bytes.length)) mem
      have hcalled := congrArg Replayed.called hstep
      rw [take_append, take_of_length_le hfit, replayWalFile_of_some cd hcalled, hstep, ih]
      rfl
    · -- the file ends after its header
      obtain ⟨hcalled, hfr⟩ := replayPhysicRecord_header_only r mem
      have htake : (r.bytes ++ fileBytes rs).take cut = r.header := by
        rw [hcut]
        rfl
      rw [htake]
      cases hs : stale r mem with
      | none =>
        rw [hs] at hcalled
        exact replayWalFile_of_none cd hcalled
      | some wr =>
        rw [hs] at hcalled
        rw [replayWalFile_of_some cd hcalled, hfr, replayWalFile_nil]
        rfl
    · -- the file ends within its header or within its body
      refine replayWalFile_of_none cd ?_
      rw [take_append_of_le_length (by omega)]
      rcases lt_or_ge cut walRecordHeadSize with hshort | hlong
      · refine replayPhysicRecord_of_short ?_ mem
        rw [length_take]
        omega
      · rw [r.bytes_eq, take_append, take_of_length_le (by omega)]
        have hpart : (r.body.take (cut - r.header.length)).length = cut - walRecordHeadSize := by
          rw [length_take]
          omega
        refine replayPhysicRecord_of_part r ?_ (by omega) mem
        exact ne_nil_of_length_pos (by omega)

theorem staleAt_isSome_iff (mem : Bytes) : (staleAt rs cut mem).isSome ↔ ReplaysStale rs cut mem := by
  induction rs generalizing cut mem with
  | nil =>
    refine ⟨fun h => absurd h (by simp [staleAt]), ?_⟩
    rintro ⟨done, r, rest, h, -, -⟩
    exact absurd h (by simp)
  | cons r rs ih =>
    have hlen := r.length_bytes
    have hpos : 0 < r.body.length := length_pos_iff.mpr (cd.encode_ne_nil r.binary)
    rw [staleAt]
    split_ifs with hfit hcut
    · rw [ih]
      constructor
      · rintro ⟨done, r', rest, rfl, hc, hs⟩
        refine ⟨r :: done, r', rest, rfl, ?_, hs⟩
        rw [fileBytes, flatMap_cons, length_append, ← fileBytes]
        omega
      · rintro ⟨done, r', rest, heq, hc, hs⟩
        cases done with
        | nil =>
          simp only [fileBytes, flatMap_nil, length_nil] at hc
          omega
        | cons d done =>
          obtain ⟨rfl, rfl⟩ := cons.inj heq
          refine ⟨done, r', rest, rfl, ?_, hs⟩
          rw [fileBytes, flatMap_cons, length_append, ← fileBytes] at hc
          omega
    · constructor
      · exact fun hs => ⟨[], r, rs, rfl, by simpa [fileBytes] using hcut, hs⟩
      · rintro ⟨done, r', rest, heq, hc, hs⟩
        cases done with
        | nil =>
          obtain ⟨rfl, rfl⟩ := cons.inj heq
          exact hs
        | cons d done =>
          obtain ⟨rfl, rfl⟩ := cons.inj heq
          rw [fileBytes, flatMap_cons, length_append, ← fileBytes] at hc
          omega
    · refine ⟨fun h => absurd h (by simp), ?_⟩
      rintro ⟨done, r', rest, heq, hc, hs⟩
      cases done with
      | nil => exact absurd (by simpa [fileBytes] using hc) hcut
      | cons d done =>
        obtain ⟨rfl, rfl⟩ := cons.inj heq
        rw [fileBytes, flatMap_cons, length_append] at hc
        omega

theorem complete_length : complete rs (fileBytes rs).length = rs := by
  induction rs with
  | nil => rfl
  | cons r rs ih =>
    rw [fileBytes, flatMap_cons, length_append, ← fileBytes, complete, if_pos (by omega), Nat.add_sub_cancel_left, ih]

theorem staleAt_length (mem : Bytes) : staleAt rs (fileBytes rs).length mem = none := by
  induction rs generalizing mem with
  | nil => rfl
  | cons r rs ih =>
    rw [fileBytes, flatMap_cons, length_append, ← fileBytes, staleAt, if_pos (by omega), Nat.add_sub_cancel_left, ih]

theorem replayWalFile_fileBytes (mem : Bytes) : replayWalFile cd (fileBytes rs) mem = rs.map LogRecord.delivered := by
  have h := replayWalFile_take rs (fileBytes rs).length mem
  rwa [take_length, complete_length, staleAt_length, Option.toList_none, append_nil] at h

/-- A compression that only marks what it has produced. -/
def markCodec : Codec Unit where
  encode b := 1 :: b
  decode
    | 1 :: b => some b
    | _ => none
  unmarshalRows _ := none
  encode_ne_nil _ := by simp
  decode_eq_some := by
    intro c b
    constructor
    · intro h
      split at h
      · cases h
        rfl
      · cases h
    · rintro rfl
      rfl

/-- A record of one byte. -/
def oneByte : LogRecord markCodec := ⟨.arrowFlight, [7], by decide, by decide⟩

end GeminiTS.Wal
