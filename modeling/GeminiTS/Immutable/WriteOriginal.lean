import GeminiTS.Immutable.ChunkMeta

/-!
# WriteOriginal — a chunk that is copied as it is

A merge copies a chunk without unordered rows piece by piece (`engine/immutable/merge_performer.go`). The bytes read so
far are counted in 32 bits.

* `copied_iff` — the loop ends and copies the chunk exactly if its size is at most a piece below 2³².
-/

namespace GeminiTS.Immutable.FileMeta

open List

/-- `fileops.DefaultBufferSize * 2` -/
def pieceLimit : ℕ := 256 * 1024 * 2

/-- The variables of the loop: `readSize` and `limit` are `uint32`, `read` are the places of the bytes that were read
and written. -/
structure Copy where
  readSize : ℕ
  limit : ℕ
  offset : Int64
  read : List Int64

/-- The places of some bytes from an offset on. -/
def placesFrom (offset : Int64) (n : ℕ) : List Int64 := (range n).map fun i => offset + Int64.ofNat i

namespace Copy

variable (size : ℕ)

/-- One piece; it is taken as long as `readSize < size`. -/
def piece (c : Copy) : Copy :=
  let limit := if size < (c.readSize + c.limit) % 2 ^ 32 then size - c.readSize else c.limit
  ⟨(c.readSize + limit) % 2 ^ 32, limit, c.offset + Int64.ofNat limit, c.read ++ placesFrom c.offset limit⟩

/-- The loop, or nothing if it has not ended after `fuel` pieces. -/
def loop : ℕ → Copy → Option Copy
  | 0, c => if c.readSize < size then none else some c
  | fuel + 1, c => if c.readSize < size then loop fuel (c.piece size) else some c

end Copy

/-- The places copied, and the meta that is written then; `dataSize` is the size of the file written so far. -/
def writeOriginal (dataSize : Int64) (m : ChunkMeta) (fuel : ℕ) : Option (List Int64 × ChunkMeta) :=
  let d := dataSize - m.offset
  let colMeta := m.colMeta.map fun cm =>
    { cm with entries := cm.entries.map fun s => { s with offset := s.offset + d } }
  (Copy.loop m.size.toNat fuel ⟨0, pieceLimit, m.offset, []⟩).map fun c =>
    (c.read, { m with offset := dataSize, colMeta := colMeta })

def ChunkMeta.segmentOffsets (m : ChunkMeta) : List (List Int64) :=
  m.colMeta.map fun cm => cm.entries.map Segment.offset

/-- The loop ends, the bytes of the chunk have been read once and in order, and all offsets are shifted alike. -/
def Copied (dataSize : Int64) (m : ChunkMeta) : Prop :=
  ∃ fuel m', writeOriginal dataSize m fuel = some (placesFrom m.offset m.size.toNat, m') ∧
    ∃ d, m'.offset = m.offset + d ∧ m'.segmentOffsets = m.segmentOffsets.map (map (· + d))

theorem placesFrom_add (offset : Int64) (a b : ℕ) :
    placesFrom offset (a + b) = placesFrom offset a ++ placesFrom (offset + Int64.ofNat a) b := by
  simp [placesFrom, range_add, Function.comp_def, Int64.add_assoc, Int64.ofNat_add]

namespace Copy

variable {size : ℕ} {c : Copy}

/-- A whole number of whole pieces has been read. -/
def Whole (c : Copy) : Prop := pieceLimit ∣ c.readSize ∧ c.readSize < 2 ^ 32 ∧ c.limit = pieceLimit

/-- The counter comes back to zero, so that it never reaches the size. -/
theorem Whole.piece (h : c.Whole) (hsize : 2 ^ 32 - pieceLimit < size) : c.readSize < size ∧ (c.piece size).Whole := by
  obtain ⟨hdvd, hlt, hlimit⟩ := h
  rw [Whole, Copy.piece, hlimit]
  unfold pieceLimit at *
  rw [if_neg (by omega)]
  refine ⟨by omega, ?_, Nat.mod_lt _ (by decide), rfl⟩
  show _ ∣ (c.readSize + 256 * 1024 * 2) % 2 ^ 32
  omega

theorem whole_start (offset : Int64) : Whole ⟨0, pieceLimit, offset, []⟩ := ⟨dvd_zero _, Nat.two_pow_pos 32, rfl⟩

theorem Whole.loop (h : c.Whole) (hsize : 2 ^ 32 - pieceLimit < size) (fuel : ℕ) : c.loop size fuel = none := by
  induction fuel generalizing c with
  | zero => exact if_pos (h.piece hsize).1
  | succ fuel ih => exact (if_pos (h.piece hsize).1).trans (ih (h.piece hsize).2)

/-- Without a wrap, the bytes up to the counter have been read. -/
theorem exists_loop {offset : Int64} (hsize : size ≤ 2 ^ 32 - pieceLimit) (hle : c.readSize ≤ size)
    (hlimit : c.limit = pieceLimit ∨ c.readSize = size) (hoffset : c.offset = offset + Int64.ofNat c.readSize)
    (hread : c.read = placesFrom offset c.readSize) :
    ∃ fuel c', c.loop size fuel = some c' ∧ c'.read = placesFrom offset size := by
  induction hleft : size - c.readSize using Nat.strong_induction_on generalizing c with
  | h left ih =>
    rcases hle.eq_or_lt with heq | hlt
    · exact ⟨0, c, if_neg heq.not_lt, heq ▸ hread⟩
    · have hwhole := hlimit.resolve_right hlt.ne
      -- The next piece is a whole one or what is left.
      obtain ⟨n, hn, hpos, hnle, hpiece⟩ : ∃ n, (n = pieceLimit ∨ c.readSize + n = size) ∧ 0 < n ∧
          c.readSize + n ≤ size ∧ c.piece size = ⟨c.readSize + n, n, c.offset + Int64.ofNat n,
            c.read ++ placesFrom c.offset n⟩ := by
        rw [piece, hwhole]
        unfold pieceLimit at *
        split_ifs with h
        · exact ⟨size - c.readSize, by omega, by omega, by omega, by rw [Nat.mod_eq_of_lt (by omega)]⟩
        · exact ⟨_, .inl rfl, by decide, by omega, by rw [Nat.mod_eq_of_lt (by omega)]⟩
      obtain ⟨fuel, c', hloop, hc'⟩ := ih (size - (c.readSize + n)) (by omega) (c := c.piece size)
        (by rw [hpiece]; exact hnle)
        (by rw [hpiece]; exact hn) (by rw [hpiece, hoffset, Int64.ofNat_add, Int64.add_assoc])
        (by rw [hpiece, hread, hoffset, placesFrom_add]) (by rw [hpiece])
      exact ⟨fuel + 1, c', (if_pos hlt).trans hloop, hc'⟩

end Copy

/-- **The chunk is copied exactly if its size is at most a piece below 2³².** -/
theorem copied_iff (dataSize : Int64) (m : ChunkMeta) : Copied dataSize m ↔ m.size.toNat ≤ 2 ^ 32 - pieceLimit := by
  constructor
  · rintro ⟨fuel, m', hwrite, -⟩
    by_contra hsize
    rw [writeOriginal, (Copy.whole_start _).loop (by omega)] at hwrite
    cases hwrite
  · intro hsize
    obtain ⟨fuel, c, hloop, hread⟩ := Copy.exists_loop (c := ⟨0, pieceLimit, m.offset, []⟩) hsize (Nat.zero_le _)
      (.inl rfl) (Int64.add_zero _).symm rfl
    refine ⟨fuel, _, by rw [writeOriginal, hloop, Option.map_some, hread], dataSize - m.offset, ?_, ?_⟩
    · rw [Int64.add_comm, Int64.sub_add_cancel]
    · simp [ChunkMeta.segmentOffsets, Function.comp_def]

/-- A chunk of the largest size; the loop never ends. -/
def largest : ChunkMeta := ⟨1, 0, 2 ^ 32 - 1, 0, 0, [], []⟩

theorem largest_not_ended : ¬ ∃ fuel, (writeOriginal 0 largest fuel).isSome := by
  rintro ⟨fuel, h⟩
  rw [writeOriginal, (Copy.whole_start _).loop (by decide)] at h
  cases h

end GeminiTS.Immutable.FileMeta
