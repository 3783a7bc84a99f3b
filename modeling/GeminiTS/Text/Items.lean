import GeminiTS.Lib.Assoc
import GeminiTS.Line.RowRoundTrip
import GeminiTS.Text.TokenIndex

/-!
# Items — postings and numbers as bytes

`marshal` and `unmarshal` of the text index (`engine/index/clv/marshal.go`). The numbers of postings and the place of
the description are 16-bit numbers at the end of an item, and the key ends at the first tab. Where the code panics there
is no result.

* `unmarshal_marshal` — an item of at most 64 KiB under a key without a tab is read as it was written.
-/

namespace GeminiTS.Text

open Lib List
open Line (zigZag unZigZag marshalInt64 unZigZag_zigZag)

/-! ### Sorting -/

/-- `isInDataSet`: no series at all stand for all series. -/
def isInDataSet (dataSet : List UInt64) (data : UInt64) : Bool := dataSet.isEmpty ||
    decide (dataSet[sortSearch (fun i => dataSet[i]?.any (data ≤ ·)) 0 dataSet.length]? = some data)

/-- Postings are ordered by row and position. -/
def InvertState.key (is : InvertState) : ℤ ×ₗ ℕ := toLex (is.rowId.toInt, is.position)

theorem map_fst_map_snd {κ V W : Type} (f : V → W) (l : List (κ × V)) :
    (l.map fun x => (x.1, f x.2)).map Prod.fst = l.map Prod.fst := by
  rw [map_map]
  rfl

/-- Change the postings of all series. -/
def InvertIndex.mapStates (f : List InvertState → List InvertState) (ii : InvertIndex) : InvertIndex := { ii with
    invertStates := ii.invertStates.map fun x => (x.1, f x.2)
    states_nodup := by
      rw [map_fst_map_snd]
      exact ii.states_nodup }

/-- Keep the series in a data set. -/
def InvertIndex.restrict (sids : List UInt64) (ii : InvertIndex) : InvertIndex := { ii with
    invertStates := ii.invertStates.filter fun x => isInDataSet sids x.1
    states_nodup := ii.states_nodup.sublist (filter_sublist.map Prod.fst) }

def InvertIndex.Sort (ii : InvertIndex) (sids : List UInt64) : InvertIndex :=
  (ii.restrict sids).mapStates (stableSort InvertState.key)

/-! ### Writing -/

def txPrefixSid : UInt8 := 4

def txPrefixId : UInt8 := 5

def txPrefixMeta : UInt8 := 6

def txSuffix : UInt8 := 9

/-- The beginning of an item: prefix, words and suffix. -/
def itemKey (p : List Bytes) : Bytes := 0 :: vtoken p ++ [txSuffix]

/-- What is written into an item and read from it. -/
structure Content where
  invertStates : List (UInt64 × List InvertState)
  ids : List ℕ

/-- Postings and numbers in the order in which they are written. -/
def InvertIndex.content (ii : InvertIndex) : Content :=
  ⟨stableSort (fun s => s.1.toNat) (ii.Sort []).invertStates, stableSort id ii.ids⟩

def InvertState.bytes (is : InvertState) : Bytes := marshalInt64 is.rowId ++ beBytes 2 is.position

/-- A series of `marshalPosList`. -/
def seriesBytes (s : UInt64 × List InvertState) : Bytes :=
  txPrefixSid :: (beBytes 8 s.1.toNat ++ s.2.flatMap InvertState.bytes)

def marshalIdList (ids : List ℕ) : Bytes := txPrefixId :: ids.flatMap (beBytes 4)

def metaFlag (sidLens : List ℕ) (idsLen : ℕ) : UInt8 :=
  (if sidLens = [] then 0 else 1) ||| if idsLen = 0 then 0 else 2

def metaLens (sidLens : List ℕ) (idsLen : ℕ) : Bytes :=
  (if sidLens = [] then [] else beBytes 2 sidLens.length ++ sidLens.flatMap (beBytes 2)) ++
    if idsLen = 0 then [] else beBytes 2 idsLen

def marshalMeta (metaOffset : ℕ) (sidLens : List ℕ) (idsLen : ℕ) : Bytes :=
  txPrefixMeta :: metaLens sidLens idsLen ++ metaFlag sidLens idsLen :: beBytes 2 metaOffset

/-- The lists of an item. -/
def Content.bytes (c : Content) : Bytes :=
  c.invertStates.flatMap seriesBytes ++ if c.ids = [] then [] else marshalIdList c.ids

def marshal (p : List Bytes) (ii : InvertIndex) : Bytes :=
  let dst := itemKey p ++ ii.content.bytes
  dst ++ marshalMeta dst.length (ii.content.invertStates.map fun s => s.2.length % 2 ^ 16)
    (ii.content.ids.length % 2 ^ 16)

/-! ### Reading -/

/-- What follows a byte, if it is the right one; otherwise nothing is read. -/
def expecting {α : Type} (b : UInt8) (nothing : α) (p : FrontReader Unit α) : FrontReader Unit α
  | [] => .error ()
  | c :: tail => if c = b then p tail else .ok (nothing, c :: tail)

def optionally {α : Type} (b : Bool) (p : FrontReader Unit α) (nothing : α) : FrontReader Unit α :=
  if b then p else pure nothing

def readNumber (w : ℕ) : FrontReader Unit ℕ := readUint w fun _ => ()

def readState : FrontReader Unit InvertState := do
  let u ← readNumber 8
  let position ← readNumber 2
  return ⟨Int64.ofBitVec (unZigZag (BitVec.ofNat 64 u)), position⟩

def unmarshalPosList : List ℕ → FrontReader Unit (List (UInt64 × List InvertState))
  | [] => pure []
  | sidLen :: sidLens => expecting txPrefixSid [] do
    let sid ← readNumber 8
    let iss ← times readState sidLen
    let rest ← unmarshalPosList sidLens
    return (UInt64.ofNat sid, iss) :: rest

def unmarshalIdList (idsLen : ℕ) : FrontReader Unit (List ℕ) := expecting txPrefixId [] (times (readNumber 4) idsLen)

def readMeta (flag : UInt8) : FrontReader Unit (List ℕ × ℕ) := expecting txPrefixMeta ([], 0) do
  let sidLens ← optionally (flag &&& 1 ≠ 0) (readNumber 2 >>= times (readNumber 2)) []
  let idsLen ← optionally (flag &&& 2 ≠ 0) (readNumber 2) 0
  return (sidLens, idsLen)

def unmarshalMeta (item : Bytes) : Except Unit (List ℕ × ℕ) :=
  match item.drop (item.length - 3) with
  | [flag, hi, lo] => (readMeta flag (item.drop (beNat [hi, lo]))).map Prod.fst
  | _ => .error ()

def readContent (sidLens : List ℕ) (idsLen : ℕ) : FrontReader Unit Content := do
  let states ← unmarshalPosList sidLens
  let ids ← optionally (idsLen ≠ 0) (unmarshalIdList idsLen) []
  return ⟨states, ids⟩

/-- Behind the first tab. -/
def behindSuffix (item : Bytes) : Bytes :=
  match item.dropWhile (· ≠ txSuffix) with
  | [] => item
  | _ :: tail => tail

def unmarshal (item : Bytes) : Except Unit Content := do
  let lens ← unmarshalMeta item
  (readContent lens.1 lens.2 (behindSuffix item)).map Prod.fst

/-! ### Postings of sorted lists -/

variable {is : InvertState} {ii : InvertIndex} {sid : UInt64} {n : ℕ}

theorem mem_states : is ∈ ii.states sid ↔ ∃ iss, (sid, iss) ∈ ii.invertStates ∧ is ∈ iss := by
  rw [InvertIndex.states]
  constructor
  · intro h
    cases hl : ii.invertStates.lookup sid with
    | none =>
      rw [hl] at h
      cases h
    | some iss =>
      rw [hl] at h
      exact ⟨iss, mem_of_lookup hl, h⟩
  · rintro ⟨iss, hmem, his⟩
    rw [lookup_of_mem_of_nodup ii.states_nodup hmem]
    exact his

theorem states_mapStates {f : List InvertState → List InvertState} (hf : f [] = []) (ii : InvertIndex) (sid : UInt64) :
    (ii.mapStates f).states sid = f (ii.states sid) := by
  rw [InvertIndex.states, InvertIndex.states, InvertIndex.mapStates, lookup_map_snd]
  cases ii.invertStates.lookup sid with
  | none => exact hf.symm
  | some iss => rfl

theorem mem_states_restrict {sids : List UInt64} :
    is ∈ (ii.restrict sids).states sid ↔ isInDataSet sids sid = true ∧ is ∈ ii.states sid := by
  rw [mem_states, mem_states]
  constructor
  · rintro ⟨iss, hmem, his⟩
    obtain ⟨hmem, hsid⟩ := mem_filter.mp hmem
    exact ⟨hsid, iss, hmem, his⟩
  · rintro ⟨hsid, iss, hmem, his⟩
    exact ⟨iss, mem_filter.mpr ⟨hmem, hsid⟩, his⟩

theorem mem_states_Sort {sids : List UInt64} :
    is ∈ (ii.Sort sids).states sid ↔ isInDataSet sids sid = true ∧ is ∈ ii.states sid := by
  rw [InvertIndex.Sort, states_mapStates rfl, (stableSort_perm _ _).mem_iff, mem_states_restrict]

/-- A posting of an item. -/
def Content.Has (c : Content) (sid : UInt64) (is : InvertState) : Prop := ∃ iss, (sid, iss) ∈ c.invertStates ∧ is ∈ iss

theorem has_content : ii.content.Has sid is ↔ is ∈ ii.states sid := by
  have hmem : ii.content.Has sid is ↔ is ∈ (ii.Sort []).states sid := by
    rw [mem_states]
    exact exists_congr fun iss => and_congr_left fun _ => (stableSort_perm _ _).mem_iff
  rw [hmem, mem_states_Sort, and_iff_right (show isInDataSet [] sid = true from rfl)]

theorem mem_ids_content : n ∈ ii.content.ids ↔ n ∈ ii.ids := (stableSort_perm _ _).mem_iff

/-! ### What is written is read -/

section Reading

variable {c : Content} {sidLens : List ℕ} {idsLen : ℕ}

theorem reads_expecting {α : Type} {b : UInt8} {nothing : α} {p : FrontReader Unit α} {bs : Bytes} {x : α}
    (h : Reads p bs x) : Reads (expecting b nothing p) (b :: bs) x := by
  intro t
  rw [cons_append, expecting, if_pos rfl, h t]

theorem reads_state (h : is.position < 2 ^ 16) : Reads readState is.bytes is := by
  have hlt : (zigZag is.rowId.toBitVec).toNat < 256 ^ 8 := (zigZag is.rowId.toBitVec).isLt
  have hpos := (Reads.uint (w := 2) h fun _ => ()).bind_pure fun position =>
    (⟨Int64.ofBitVec (unZigZag (BitVec.ofNat 64 (zigZag is.rowId.toBitVec).toNat)), position⟩ : InvertState)
  have hread : Reads readState is.bytes
      ⟨Int64.ofBitVec (unZigZag (BitVec.ofNat 64 (zigZag is.rowId.toBitVec).toNat)), is.position⟩ :=
    (Reads.uint hlt fun _ => ()).bind hpos
  rwa [BitVec.ofNat_toNat, BitVec.setWidth_eq, unZigZag_zigZag] at hread

theorem reads_posList {states : List (UInt64 × List InvertState)}
    (h : ∀ s ∈ states, s.2.length < 2 ^ 16 ∧ ∀ is ∈ s.2, is.position < 2 ^ 16) :
    Reads (unmarshalPosList (states.map fun s => s.2.length % 2 ^ 16)) (states.flatMap seriesBytes) states := by
  induction states with
  | nil => exact Reads.pure []
  | cons s states ih =>
    obtain ⟨hs, h⟩ := forall_mem_cons.mp h
    have hsid := Reads.uint (w := 8) s.1.toNat_lt fun _ => ()
    have hstates := Reads.times fun is his => reads_state (hs.2 is his)
    rw [map_cons, Nat.mod_eq_of_lt hs.1, flatMap_cons, seriesBytes, cons_append, append_assoc]
    refine reads_expecting (hsid.bind (hstates.bind ?_))
    simp only [UInt64.ofNat_toNat]
    exact (ih h).bind_pure fun rest => s :: rest

theorem reads_optionally {α : Type} {b : Prop} [Decidable b] {p : FrontReader Unit α} {bs : Bytes} {x nothing : α}
    (h : ¬ b → Reads p bs x) (hnot : b → x = nothing) :
    Reads (optionally (decide ¬ b) p nothing) (if b then [] else bs) x := by
  unfold optionally
  by_cases hb : b
  · rw [if_pos hb, if_neg (by simpa using hb), hnot hb]
    exact Reads.pure nothing
  · rw [if_neg hb, if_pos (decide_eq_true hb)]
    exact h hb

theorem reads_content (h : ∀ s ∈ c.invertStates, s.2.length < 2 ^ 16 ∧ ∀ is ∈ s.2, is.position < 2 ^ 16)
    (hids : c.ids.length < 2 ^ 16 ∧ ∀ n ∈ c.ids, n < 2 ^ 32) :
    Reads (readContent (c.invertStates.map fun s => s.2.length % 2 ^ 16) (c.ids.length % 2 ^ 16)) c.bytes c := by
  refine (reads_posList h).bind (Reads.bind_pure (x := c.ids) ?_ fun ids => (⟨c.invertStates, ids⟩ : Content))
  have htimes : Reads (times (readNumber 4) c.ids.length) (c.ids.flatMap (beBytes 4)) c.ids :=
    Reads.times fun n hn => Reads.uint (w := 4) (hids.2 n hn) _
  rw [Nat.mod_eq_of_lt hids.1]
  simp only [ne_eq, length_eq_zero_iff]
  exact reads_optionally (fun _ => reads_expecting htimes) fun h => h

theorem metaFlag_pos : decide (metaFlag sidLens idsLen &&& 1 ≠ 0) = decide (sidLens ≠ []) := by
  rw [metaFlag]
  split_ifs with h <;> simp [h] <;> decide

theorem metaFlag_id : decide (metaFlag sidLens idsLen &&& 2 ≠ 0) = decide (idsLen ≠ 0) := by
  rw [metaFlag]
  split_ifs with _ h h <;> simp [h] <;> decide

theorem reads_meta (hs : sidLens.length < 2 ^ 16) (hl : ∀ n ∈ sidLens, n < 2 ^ 16) (hi : idsLen < 2 ^ 16) :
    Reads (readMeta (metaFlag sidLens idsLen)) (txPrefixMeta :: metaLens sidLens idsLen) (sidLens, idsLen) := by
  have hlens : Reads (readNumber 2 >>= times (readNumber 2)) (beBytes 2 sidLens.length ++ sidLens.flatMap (beBytes 2))
      sidLens :=
    (Reads.uint (w := 2) hs _).bind (Reads.times fun n hn => Reads.uint (w := 2) (hl n hn) _)
  unfold readMeta
  rw [metaFlag_pos, metaFlag_id]
  refine reads_expecting ((reads_optionally (fun _ => hlens) fun h => h).bind ?_)
  exact (reads_optionally (fun _ => Reads.uint (w := 2) hi _) fun h => h).bind_pure fun idsLen => (sidLens, idsLen)

theorem unmarshalMeta_append {dst : Bytes} (hdst : dst.length < 2 ^ 16) (hs : sidLens.length < 2 ^ 16)
    (hl : ∀ n ∈ sidLens, n < 2 ^ 16) (hi : idsLen < 2 ^ 16) :
    unmarshalMeta (dst ++ marshalMeta dst.length sidLens idsLen) = .ok (sidLens, idsLen) := by
  have hend : (dst ++ marshalMeta dst.length sidLens idsLen).drop
      ((dst ++ marshalMeta dst.length sidLens idsLen).length - 3) =
        metaFlag sidLens idsLen :: beBytes 2 dst.length := by
    rw [marshalMeta, ← append_assoc]
    refine drop_left' ?_
    simp only [length_append, length_cons, length_beBytes]
    omega
  have hmeta : (dst ++ marshalMeta dst.length sidLens idsLen).drop (beNat (beBytes 2 dst.length)) =
      marshalMeta dst.length sidLens idsLen := by
    rw [beNat_beBytes hdst, drop_left]
  have hread := reads_meta hs hl hi (metaFlag sidLens idsLen :: beBytes 2 dst.length)
  rw [unmarshalMeta, hend]
  show (readMeta (metaFlag sidLens idsLen) ((dst ++ marshalMeta dst.length sidLens idsLen).drop
    (beNat (beBytes 2 dst.length)))).map Prod.fst = _
  rw [hmeta, marshalMeta, hread]
  rfl

theorem behindSuffix_itemKey {p : List Bytes} (hp : txSuffix ∉ vtoken p) (t : Bytes) :
    behindSuffix (itemKey p ++ t) = t := by
  have hdrop : (itemKey p ++ t).dropWhile (· ≠ txSuffix) = txSuffix :: t := by
    rw [itemKey, append_assoc, dropWhile_append_of_pos]
    · rw [singleton_append, dropWhile_cons_of_neg (by simp)]
    · intro b hb
      rcases mem_cons.mp hb with rfl | hb
      · decide
      · exact decide_eq_true fun h => hp (h ▸ hb)
  rw [behindSuffix, hdrop]

end Reading

/-! ### Items that can be stored -/

section Lengths

variable {α : Type} {f : α → Bytes} {l : List α}

theorem length_le_flatMap (h : ∀ a, 1 ≤ (f a).length) : l.length ≤ (l.flatMap f).length := by
  induction l with
  | nil => exact le_rfl
  | cons a l ih =>
    have ha := h a
    rw [flatMap_cons, length_append, length_cons]
    omega

theorem length_flatMap_of_length {k : ℕ} (h : ∀ a, (f a).length = k) : (l.flatMap f).length = k * l.length := by
  induction l with
  | nil => rfl
  | cons a l ih => rw [flatMap_cons, length_append, ih, h, length_cons, Nat.mul_succ, Nat.add_comm]

theorem length_le_flatMap_of_mem {a : α} (ha : a ∈ l) : (f a).length ≤ (l.flatMap f).length := by
  obtain ⟨s, t, rfl⟩ := append_of_mem ha
  rw [flatMap_append, flatMap_cons, length_append, length_append]
  omega

end Lengths

/-- The key has no tab, and the item is not longer than 64 KiB. -/
def Storable (y : Item) : Prop := txSuffix ∉ vtoken y.1 ∧ (marshal y.1 y.2).length ≤ 2 ^ 16

/-- **An item that can be stored is read as it was written.** -/
theorem unmarshal_marshal {p : List Bytes} (h : Storable (p, ii))
    (hpos : ∀ sid, ∀ is ∈ ii.states sid, is.position < 2 ^ 16)
    (hids : ∀ n ∈ ii.ids, n < 2 ^ 32) : unmarshal (marshal p ii) = .ok ii.content := by
  have hkey : txSuffix ∉ vtoken p := h.1
  have hlen : (marshal p ii).length ≤ 2 ^ 16 := h.2
  have hparts : (marshal p ii).length = (itemKey p).length + (ii.content.invertStates.flatMap seriesBytes).length +
      (if ii.content.ids = [] then [] else marshalIdList ii.content.ids).length +
      (marshalMeta (itemKey p ++ ii.content.bytes).length (ii.content.invertStates.map fun s => s.2.length % 2 ^ 16)
        (ii.content.ids.length % 2 ^ 16)).length := by
    rw [marshal, length_append, length_append, Content.bytes, length_append]
    omega
  have hmeta : 1 ≤ (marshalMeta (itemKey p ++ ii.content.bytes).length
      (ii.content.invertStates.map fun s => s.2.length % 2 ^ 16) (ii.content.ids.length % 2 ^ 16)).length := by
    rw [marshalMeta, cons_append, length_cons]
    omega
  have hseries : ii.content.invertStates.length ≤ (ii.content.invertStates.flatMap seriesBytes).length :=
    length_le_flatMap fun s => by rw [seriesBytes, length_cons]; omega
  have hnums : ii.content.ids.length ≤ (if ii.content.ids = [] then [] else marshalIdList ii.content.ids).length := by
    split_ifs with hnil
    · exact le_of_eq (congrArg length hnil)
    · have hle : ii.content.ids.length ≤ (ii.content.ids.flatMap (beBytes 4)).length :=
        length_le_flatMap fun n => by rw [length_beBytes]; decide
      rw [marshalIdList, length_cons]
      omega
  have hstates : ∀ s ∈ ii.content.invertStates, s.2.length < 2 ^ 16 ∧ ∀ is ∈ s.2, is.position < 2 ^ 16 := by
    intro s hs
    refine ⟨?_, fun is his => hpos s.1 is (has_content.mp ⟨s.2, hs, his⟩)⟩
    have hle : s.2.length ≤ (s.2.flatMap InvertState.bytes).length :=
      length_le_flatMap fun is => by rw [InvertState.bytes, length_append, length_beBytes]; omega
    have hmem := length_le_flatMap_of_mem (f := seriesBytes) hs
    rw [seriesBytes, length_cons, length_append] at hmem
    omega
  have hread := reads_content hstates ⟨by omega, fun n hn => hids n (mem_ids_content.mp hn)⟩
  have hdst : (itemKey p ++ ii.content.bytes).length < 2 ^ 16 := by
    rw [length_append, Content.bytes, length_append]
    omega
  have hlens := unmarshalMeta_append hdst
    (show (ii.content.invertStates.map fun s => s.2.length % 2 ^ 16).length < 2 ^ 16 by rw [length_map]; omega)
    (forall_mem_map.mpr fun s _ => Nat.mod_lt _ (Nat.two_pow_pos 16))
    (Nat.mod_lt ii.content.ids.length (Nat.two_pow_pos 16))
  rw [unmarshal, marshal, hlens]
  show (readContent _ _ (behindSuffix _)).map Prod.fst = _
  rw [append_assoc, behindSuffix_itemKey hkey, hread]
  rfl

end GeminiTS.Text
