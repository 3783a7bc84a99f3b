import GeminiTS.Index.Tokenizer

/-!
# BloomFilter — the skip index of a text column

For every segment of a column the hashes of its words are put into a filter; a search for a phrase reads only the
segments whose filter has all hashes of the phrase.
-/

namespace GeminiTS.Index

open Lib List

/-! ### Filters -/

/-- All masks with two of 32 bits, the first sixteen of them again at the end. -/
def table : List ℕ :=
  let pairs := (range 31).flatMap fun i => (range' (i + 1) (31 - i)).map fun j => 1 <<< i ||| 1 <<< j
  pairs ++ pairs.take 16

/-- The place of the eight bytes in which a hash has its bits. -/
def target (hash : UInt64) : ℕ := (hash >>> 46).toNat

/-- The bits of a hash in its eight bytes. -/
def value (hash : UInt64) : ℕ :=
  table.getD ((hash >>> 28) &&& 0x1ff).toNat 0 ||| table.getD ((hash >>> 37) &&& 0x1ff).toNat 0 <<< 32

/-- The eight bytes of a filter at a place; a filter is the number its bytes are with the lowest one first. -/
def word64 (filter place : ℕ) : ℕ := (filter >>> (8 * place)) % 2 ^ 64

/-- `v|s` is put into the eight bytes that held `s`. -/
def addHash (filter : ℕ) (hash : UInt64) : ℕ :=
  let v := value hash
  let s := word64 filter (target hash)
  if v &&& s = v then filter else filter ||| v <<< (8 * target hash)

def hit (filter : ℕ) (hash : UInt64) : Bool := value hash &&& word64 filter (target hash) = value hash

/-- `ProcessTokenizerBatch`. -/
def processTokenizerBatch (seps : List UInt8) (rows : List Bytes) (filter : ℕ) : ℕ :=
  rows.foldl (fun filter row => (byteTokens seps row).foldl addHash filter) filter

/-! ### Writer and reader -/

/-- `SplitColBySize`: the numbers are the ends of the segments, the last segment goes to the end of the column. -/
def splitColBySize (col : List (Option Bytes)) (start : ℕ) : List ℕ → List (List (Option Bytes))
  | [] => []
  | [_] => [col.drop start]
  | e :: ends => (col.drop start).take (e - start) :: splitColBySize col e ends

/-- The filter of a segment. -/
def genFilter (seps : List UInt8) (segment : List (Option Bytes)) : ℕ :=
  processTokenizerBatch seps (segment.filterMap id) 0

def genBloomFilterData (seps : List UInt8) (col : List (Option Bytes)) (rowsPerSegment : List ℕ) : List ℕ :=
  (splitColBySize col 0 rowsPerSegment).map (genFilter seps)

/-- `hitExpr` for a phrase: without a hash nothing is found. -/
def hitHashes (filter : ℕ) (hashes : List UInt64) : Bool := hashes ≠ [] && hashes.all (hit filter)

/-- `isExist` for the filters of a file; there is no result where the code has an index out of range. -/
def isExist (seps : List UInt8) (filters : List ℕ) (blockId : ℕ) (phrase : Bytes) : Option Bool := do
  let hashes ← gramHashes seps phrase
  let filter ← filters[blockId]?
  pure (hitHashes filter hashes)

/-! ### The bits of a hash -/

/-- The bits of a hash in the whole filter. -/
def mask (hash : UInt64) : ℕ := value hash <<< (8 * target hash)

theorem table_lt : ∀ v ∈ table, v < 2 ^ 32 := by
  decide +kernel

theorem getD_table_lt (i : ℕ) : table.getD i 0 < 2 ^ 32 := by
  rw [getD_eq_getElem?_getD]
  cases h : table[i]? with
  | none => decide
  | some v => exact table_lt v (mem_of_getElem? h)

theorem value_lt (hash : UInt64) : value hash < 2 ^ 64 := by
  have hlow := getD_table_lt ((hash >>> 28) &&& 0x1ff).toNat
  have hhigh := getD_table_lt ((hash >>> 37) &&& 0x1ff).toNat
  apply Nat.or_lt_two_pow
  · omega
  · rw [Nat.shiftLeft_eq]
    omega

theorem and_eq_self_iff (v s : ℕ) : v &&& s = v ↔ ∀ k, v.testBit k = true → s.testBit k = true := by
  constructor
  · intro h k hk
    rw [← h, Nat.testBit_and, Bool.and_eq_true] at hk
    exact hk.2
  · intro h
    apply Nat.eq_of_testBit_eq
    intro k
    rw [Nat.testBit_and]
    cases hk : v.testBit k with
    | false => rfl
    | true => rw [h k hk]; rfl

variable (seps : List UInt8) (filter : ℕ)

theorem hit_iff (hash : UInt64) :
    hit filter hash = true ↔ ∀ k, (mask hash).testBit k = true → filter.testBit k = true := by
  rw [hit, decide_eq_true_iff, and_eq_self_iff]
  simp only [mask, word64, Nat.testBit_shiftLeft, Nat.testBit_mod_two_pow, Nat.testBit_shiftRight, Bool.and_eq_true,
    decide_eq_true_iff]
  constructor
  · rintro h k ⟨hk, hv⟩
    have := (h _ hv).2
    rwa [show 8 * target hash + (k - 8 * target hash) = k by omega] at this
  · intro h k hv
    refine ⟨?_, h _ ⟨by omega, by rwa [show 8 * target hash + k - 8 * target hash = k by omega]⟩⟩
    by_contra hk
    rw [Nat.testBit_lt_two_pow (Nat.lt_of_lt_of_le (value_lt hash) (Nat.pow_le_pow_right (by decide) (by omega)))] at hv
    cases hv

theorem testBit_addHash (hash : UInt64) (k : ℕ) :
    (addHash filter hash).testBit k = true ↔ filter.testBit k = true ∨ (mask hash).testBit k = true := by
  rw [addHash]
  split_ifs with hall
  · have hbits := (hit_iff filter hash).mp (decide_eq_true hall)
    exact ⟨.inl, fun h => h.elim id (hbits k)⟩
  · rw [Nat.testBit_or, Bool.or_eq_true]
    rfl

theorem testBit_foldl_addHash (hashes : List UInt64) (filter k : ℕ) : (hashes.foldl addHash filter).testBit k = true ↔
      filter.testBit k = true ∨ ∃ h ∈ hashes, (mask h).testBit k = true := by
  induction hashes generalizing filter with
  | nil => simp
  | cons h hashes ih =>
    rw [foldl_cons, ih, testBit_addHash, exists_mem_cons_iff, or_assoc]

/-- **A filter has the bits of the words of its rows.** -/
theorem testBit_processTokenizerBatch (rows : List Bytes) (filter k : ℕ) :
    (processTokenizerBatch seps rows filter).testBit k = true ↔
      filter.testBit k = true ∨ ∃ row ∈ rows, ∃ h ∈ byteTokens seps row, (mask h).testBit k = true := by
  induction rows generalizing filter with
  | nil => simp [processTokenizerBatch]
  | cons row rows ih =>
    rw [processTokenizerBatch, foldl_cons, ← processTokenizerBatch, ih, testBit_foldl_addHash,
      exists_mem_cons_iff, or_assoc]

/-- The words of a segment have all bits of the hash. -/
def Covers (seps : List UInt8) (segment : List (Option Bytes)) (hash : UInt64) : Prop :=
  ∀ k, (mask hash).testBit k = true → ∃ row, some row ∈ segment ∧ ∃ h ∈ byteTokens seps row, (mask h).testBit k = true

theorem hit_genFilter_iff (segment : List (Option Bytes)) (hash : UInt64) :
    hit (genFilter seps segment) hash = true ↔ Covers seps segment hash := by
  rw [hit_iff]
  refine forall_congr' fun k => imp_congr_right fun _ => ?_
  rw [genFilter, testBit_processTokenizerBatch, Nat.zero_testBit]
  simp only [Bool.false_eq_true, false_or, mem_filterMap, id_eq, exists_eq_right]

theorem covers_of_mem {seps : List UInt8} {segment : List (Option Bytes)} {row : Bytes} (hrow : some row ∈ segment)
    {hash : UInt64} (hhash : hash ∈ byteTokens seps row) : Covers seps segment hash :=
  fun _ hk => ⟨row, hrow, hash, hhash, hk⟩

end GeminiTS.Index
