import GeminiTS.Lib.Bytes
import GeminiTS.Lib.Words

/-!
# Tokenizer — the words of a text and their hashes

Three readers of one text with the same separators.
-/

namespace GeminiTS.Index

open Lib List

/-! ### Hashes -/

def prime64 : UInt64 := 0x9E3779B185EBCA87

/-- `bits.RotateLeft64(h, 11)`. -/
def rotateLeft11 (h : UInt64) : UInt64 := (h <<< 11) ||| (h >>> 53)

/-- The hash of a word with one more byte. -/
def hashByte (h : UInt64) (b : UInt8) : UInt64 := h ^^^ (rotateLeft11 h ^^^ (b.toUInt64 * prime64))

/-- The hash of a word; the seed is 0. -/
def hash (word : Bytes) : UInt64 := word.foldl hashByte 0

/-- The hash `pre` of a word behind what has the hash `prepre`. -/
def combine (pre prepre : UInt64) : UInt64 := rotateLeft11 pre ^^^ (prepre * prime64)

/-! ### Tokenizers -/

section

variable (seps : List UInt8)

/-- `BuildSplitTable`. -/
def splitTable (b : UInt8) : Bool := b ∈ seps

/-- The hashes `SimpleTokenizer.Next` finds one after the other. -/
def byteTokens : Bytes → List UInt64
  | [] => []
  | b :: bs =>
    if splitTable seps b then byteTokens bs
    else hash (b :: bs.takeWhile (! splitTable seps ·)) :: byteTokens (bs.dropWhile (! splitTable seps ·))
termination_by bs => bs.length
decreasing_by
  · exact Nat.lt_succ_self _
  · exact Nat.lt_succ_of_le (length_dropWhile_le _ bs)

def isSplit (b : UInt8) : Bool := b < 0x80 && splitTable seps b

def isChar (b : UInt8) : Bool := b < 0x80 && ! splitTable seps b

/-- How many bytes a character has by its first byte; bytes that start none are skipped. -/
def charWidth (b : UInt8) : Option ℕ :=
  if b ≤ 0xdf then some 2 else if b ≤ 0xef then some 3 else if b ≤ 0xf7 then some 4 else none

/-- A hash and the separator in front of it; 1 stands for a character beyond ASCII. -/
structure Token where
  hash : UInt64
  preSplitChar : UInt8
deriving DecidableEq

/-- What `SimpleUtf8Tokenizer.Next` finds one after the other, with `preSplitChar` when it has found it, and
`preSplitChar` at the end. There is no result if the last character is cut off: then the index is out of range. -/
def utf8Tokens (preSplitChar : UInt8) : Bytes → Option (List Token × UInt8)
  | [] => some ([], preSplitChar)
  | b :: bs =>
    if isSplit seps b then utf8Tokens b bs
    else if isChar seps b then
      (utf8Tokens preSplitChar (bs.dropWhile (isChar seps))).map fun r =>
        (⟨hash (b :: bs.takeWhile (isChar seps)), preSplitChar⟩ :: r.1, r.2)
    else
      match charWidth b with
      | none => utf8Tokens preSplitChar bs
      | some n =>
        if bs.length + 1 < n then none
        else (utf8Tokens 1 (bs.drop (n - 1))).map fun r => (⟨hash ((b :: bs).take n), 1⟩ :: r.1, r.2)
termination_by bs => bs.length
decreasing_by
  · exact Nat.lt_succ_self _
  · exact Nat.lt_succ_of_le (length_dropWhile_le _ bs)
  · exact Nat.lt_succ_self _
  · rw [length_drop, length_cons]
    omega

end

/-! ### Combined hashes -/

/-- `SimpleGramTokenizerV1`, with the local `isInit`. -/
structure Gram where
  hashValue : UInt64
  prepreHash : UInt64
  preHash : UInt64
  currSplit : UInt8
  currSplitNum : ℕ
  isInit : Bool
  allHashes : List UInt64
deriving DecidableEq

namespace Gram

def new : Gram := ⟨0, 0, 0, 0, 0, false, []⟩

/-- `addHashes`, with `preSplitChar` and the hash of the inner tokenizer. -/
def addHashes (t : Gram) (preSplitChar : UInt8) (current : UInt64) : Gram :=
  let hashes :=
    if t.currSplitNum = 1 then
      if preSplitChar = 1 then [combine t.preHash t.prepreHash] else [t.preHash, t.prepreHash]
    else [t.hashValue]
  ⟨current, 0, current, 0, 0, t.isInit, t.allHashes ++ hashes⟩

/-- One more word is combined. -/
def join (t : Gram) (token : Token) : Gram :=
  { t with
    prepreHash := t.preHash
    preHash := token.hash
    hashValue := combine token.hash t.hashValue
    currSplit := token.preSplitChar
    currSplitNum := t.currSplitNum + 1 }

/-- One round of the loop of `InitInput`. -/
def step (t : Gram) (token : Token) : Gram :=
  if token.hash = 0 then t
  else if t.isInit = false then { t with hashValue := token.hash, preHash := token.hash, isInit := true }
  else if t.currSplitNum = 0 then t.join token
  else if t.currSplit ≠ token.preSplitChar then
    { t.addHashes token.preSplitChar token.hash with isInit := false }
  else if 3 ≤ t.currSplitNum then { t.addHashes token.preSplitChar token.hash with isInit := false }
  else t.join token

/-- What is left behind the loop. -/
def finish (t : Gram) (preSplitChar : UInt8) : Gram :=
  if t.hashValue ≠ 0 then t.addHashes preSplitChar 0 else t

end Gram

/-- The hashes the reader looks up for a phrase. -/
def gramHashes (seps : List UInt8) (phrase : Bytes) : Option (List UInt64) :=
  (utf8Tokens seps 0 phrase).map fun r => ((r.1.foldl Gram.step Gram.new).finish r.2).allHashes.filter (· ≠ 0)

/-! ### The search in a row -/

/-- The first place at or behind `i` where the text stands, which is not empty. -/
def indexOfFrom (source target : Bytes) (i : ℕ) : Option ℕ :=
  if i + target.length ≤ source.length then
    if target <+: source.drop i then some i else indexOfFrom source target (i + 1)
  else none
termination_by source.length + 1 - i

def indexOf (source target : Bytes) (start : ℕ) : Option ℕ :=
  if source.length ≤ start then if target = [] then some source.length else none
  else if target = [] then some start
  else indexOfFrom source target start

variable {source target : Bytes} {start found : ℕ}

theorem indexOfFrom_spec {i : ℕ} (h : indexOfFrom source target i = some found) :
    i ≤ found ∧ found + target.length ≤ source.length ∧ target <+: source.drop found := by
  fun_induction indexOfFrom source target i with
  | case1 i hle hat =>
    cases h
    exact ⟨le_refl _, hle, hat⟩
  | case2 i hle hat ih =>
    obtain ⟨hi, hrest⟩ := ih h
    exact ⟨by omega, hrest⟩
  | case3 i hle => cases h

theorem indexOf_spec (hne : target ≠ []) (h : indexOf source target start = some found) :
    start ≤ found ∧ found + target.length ≤ source.length ∧ target <+: source.drop found := by
  rw [indexOf] at h
  split_ifs at h with hend
  exact indexOfFrom_spec h

/-- A place at or behind the start at which the text stands is not passed over. -/
theorem indexOf_le (hne : target ≠ []) {q : ℕ} (hq : start ≤ q) (hat : target <+: source.drop q) :
    ∃ found ≤ q, indexOf source target start = some found := by
  have hpos := length_pos_iff.mpr hne
  have hlen := hat.length_le
  rw [length_drop] at hlen
  rw [indexOf, if_neg (by omega), if_neg hne]
  fun_induction indexOfFrom source target start with
  | case1 i hle hat' => exact ⟨i, hq, rfl⟩
  | case2 i hle hnot ih =>
    have hiq : i ≠ q := fun h => hnot (h ▸ hat)
    exact ih (by omega)
  | case3 i hlt => omega

section Finder

variable (seps : List UInt8) (content token : Bytes)

/-- `isSplit` of the finder; there is no result if the index is out of range. -/
def splitAt (pos : ℕ) : Option Bool := (content[pos]?).map fun b => decide (0x80 ≤ b) || splitTable seps b

def preValid (found : ℕ) : Option Bool :=
  if found = 0 then some true
  else (splitAt seps content (found - 1)).bind fun b => if b then some true else splitAt seps content found

def postValid (found : ℕ) : Option Bool :=
  if content.length ≤ found + token.length then some true
  else (splitAt seps content (found + token.length)).bind fun b =>
    if b then some true
    else if found + token.length = 0 then none
    else splitAt seps content (found + token.length - 1)

/-- `CurrentOffset` behind a call of `SimpleTokenFinder.Next` from a place on: no place if `Next` returns false, and no
result if an index is out of range. -/
def finderOffset (start : ℕ) : Option (Option ℕ) :=
  match _h : indexOf content token start with
  | none => some none
  | some found =>
    (preValid seps content found).bind fun pre => (postValid seps content token found).bind fun post =>
      if pre && post then some (some found)
      else if _hne : token = [] then none
      else finderOffset (found + token.length)
termination_by content.length + 1 - start
decreasing_by
  obtain ⟨hle, hlen, -⟩ := indexOf_spec _hne _h
  have := length_pos_iff.mpr _hne
  omega

/-- What that call of `Next` returns. -/
def finderNext (start : ℕ) : Option Bool := (finderOffset seps content token start).map Option.isSome

/-- The token stands at a place, and each end is at the edge of the content or next to or on a separator or a byte
beyond ASCII. -/
def Aligned (q : ℕ) : Prop :=
  token <+: content.drop q ∧ (q = 0 ∨ splitAt seps content (q - 1) = some true ∨ splitAt seps content q = some true) ∧
    (q + token.length = content.length ∨ splitAt seps content (q + token.length) = some true ∨
      splitAt seps content (q + token.length - 1) = some true)

instance (q : ℕ) : Decidable (Aligned seps content token q) := inferInstanceAs (Decidable (_ ∧ _))

/-- The first call of `Next` finds the first aligned place, if there is one. -/
def FindsFirst : Prop := ∃ r : Option ℕ, finderNext seps content token 0 = some r.isSome ∧
  finderOffset seps content token 0 = some r ∧
  ∀ q, r = some q ↔ Aligned seps content token q ∧ ∀ q' < q, ¬ Aligned seps content token q'

/-- `p` is the first place at or behind `start` where the token stands. -/
def StandsFirst (start p : ℕ) : Prop :=
  start ≤ p ∧ token <+: content.drop p ∧ ∀ q, start ≤ q → q < p → ¬ token <+: content.drop q

/-- The places where the token stands that are counted when its occurrences are counted from left to right without
overlaps. -/
inductive Counted : ℕ → ℕ → Prop
  | first {start p : ℕ} : StandsFirst content token start p → Counted start p
  | next {start p q : ℕ} : StandsFirst content token start p → Counted (p + token.length) q → Counted start q

variable {seps content token}

theorem splitAt_or {p q : ℕ} (hp : p < content.length) (hq : q < content.length) :
    ∃ b, ((splitAt seps content p).bind fun b => if b then some true else splitAt seps content q) = some b ∧
      (b = true ↔ splitAt seps content p = some true ∨ splitAt seps content q = some true) := by
  rw [splitAt, splitAt, getElem?_eq_getElem hp, getElem?_eq_getElem hq, Option.map_some, Option.bind_some]
  split_ifs with h
  · exact ⟨true, rfl, iff_of_true rfl (.inl (congrArg some h))⟩
  · exact ⟨_, rfl, by simp [h]⟩

/-- The tests have results where the token stands, and say whether it is aligned. -/
theorem valid_iff_aligned (hne : token ≠ []) {found : ℕ} (hlen : found + token.length ≤ content.length)
    (hat : token <+: content.drop found) : ∃ pre post, preValid seps content found = some pre ∧
      postValid seps content token found = some post ∧ ((pre && post) = true ↔ Aligned seps content token found) := by
  have hpos := length_pos_iff.mpr hne
  rw [Aligned, and_iff_right hat]
  simp only [Bool.and_eq_true]
  obtain ⟨pre, hpre, hpre'⟩ : ∃ b, preValid seps content found = some b ∧ (b = true ↔
      found = 0 ∨ splitAt seps content (found - 1) = some true ∨ splitAt seps content found = some true) := by
    rw [preValid]
    split_ifs with h0
    · exact ⟨true, rfl, iff_of_true rfl (.inl h0)⟩
    · rw [or_iff_right h0]
      exact splitAt_or (by omega) (by omega)
  obtain ⟨post, hpost, hpost'⟩ : ∃ b, postValid seps content token found = some b ∧ (b = true ↔
      found + token.length = content.length ∨ splitAt seps content (found + token.length) = some true ∨
        splitAt seps content (found + token.length - 1) = some true) := by
    rw [postValid, if_neg (show found + token.length ≠ 0 by omega)]
    split_ifs with hend
    · exact ⟨true, rfl, iff_of_true rfl (.inl (by omega))⟩
    · rw [or_iff_right (by omega)]
      exact splitAt_or (by omega) (by omega)
  exact ⟨pre, post, hpre, hpost, and_congr hpre' hpost'⟩

theorem standsFirst_of_indexOf (hne : token ≠ []) {start found : ℕ} (h : indexOf content token start = some found) :
    StandsFirst content token start found := by
  obtain ⟨hle, -, hat⟩ := indexOf_spec hne h
  refine ⟨hle, hat, fun q hq hlt hat' => ?_⟩
  obtain ⟨found', hle', hfound'⟩ := indexOf_le hne hq hat'
  rw [h] at hfound'
  cases hfound'
  omega

theorem StandsFirst.unique {start p q : ℕ} (hp : StandsFirst content token start p)
    (hq : StandsFirst content token start q) : p = q := by
  rcases lt_trichotomy p q with h | h | h
  · exact absurd hp.2.1 (hq.2.2 p hp.1 h)
  · exact h
  · exact absurd hq.2.1 (hp.2.2 q hq.1 h)

theorem Counted.stands {start q : ℕ} (h : Counted content token start q) : start ≤ q ∧ token <+: content.drop q := by
  induction h with
  | first h => exact ⟨h.1, h.2.1⟩
  | next h _ ih => exact ⟨h.1.trans (by omega), ih.2⟩

/-- Behind the first place only those are counted that do not overlap it. -/
theorem StandsFirst.counted_iff {start p q : ℕ} (hp : StandsFirst content token start p) :
    Counted content token start q ↔ q = p ∨ Counted content token (p + token.length) q := by
  constructor
  · rintro (hq | ⟨hp', hq⟩)
    · exact .inl (hq.unique hp)
    · exact .inr (hp'.unique hp ▸ hq)
  · rintro (rfl | hq)
    · exact .first hp
    · exact .next hp hq

/-- The loop of `Next` finds the first counted place that is aligned. -/
theorem finder_from (hne : token ≠ []) (start : ℕ) : ∃ r : Option ℕ, finderOffset seps content token start = some r ∧
    ∀ q, r = some q ↔ (Counted content token start q ∧ Aligned seps content token q) ∧
      ∀ q' < q, Counted content token start q' → ¬ Aligned seps content token q' := by
  fun_induction finderOffset seps content token start with
  | case1 start h =>
    refine ⟨none, rfl, fun q => iff_of_false (by simp) fun hq => ?_⟩
    obtain ⟨hle, hat⟩ := hq.1.1.stands
    obtain ⟨found, -, hfound⟩ := indexOf_le hne hle hat
    rw [h] at hfound
    cases hfound
  | case2 start found h ih =>
    have hfirst := standsFirst_of_indexOf hne h
    obtain ⟨pre, post, hpre, hpost, hiff⟩ : ∃ pre post, preValid seps content found = some pre ∧
        postValid seps content token found = some post ∧ ((pre && post) = true ↔ Aligned seps content token found) :=
      valid_iff_aligned hne (indexOf_spec hne h).2.1 hfirst.2.1
    have hlater : ∀ q, Counted content token (found + token.length) q → found < q := fun q hq =>
      (Nat.lt_add_of_pos_right (length_pos_iff.mpr hne)).trans_le hq.stands.1
    simp only [hpre, hpost, Option.bind_some, hfirst.counted_iff]
    by_cases haligned : Aligned seps content token found
    · rw [if_pos (hiff.mpr haligned)]
      refine ⟨some found, rfl, fun q => ⟨?_, fun hq => ?_⟩⟩
      · rintro ⟨⟩
        refine ⟨⟨.inl rfl, haligned⟩, fun q' hlt hq' => ?_⟩
        rcases hq' with rfl | hq'
        · omega
        · exact absurd (hlater q' hq') (by omega)
      · rcases hq.1.1 with rfl | hq'
        · rfl
        · exact absurd haligned (hq.2 found (hlater q hq') (.inl rfl))
    · rw [if_neg (mt hiff.mp haligned), dif_neg hne]
      obtain ⟨r, hr, hrest⟩ := ih hne
      refine ⟨r, hr, fun q => (hrest q).trans ?_⟩
      -- the place found is not aligned, so it is none of those compared
      grind

/-- **A token is found at its first aligned place** exactly if that place is counted. -/
theorem findsFirst_iff_counted (hne : token ≠ []) : FindsFirst seps content token ↔
    ∀ q, Aligned seps content token q → (∀ q' < q, ¬ Aligned seps content token q') → Counted content token 0 q := by
  obtain ⟨r, hr, hfirst⟩ := @finder_from seps content token hne 0
  constructor
  · rintro ⟨r', -, hr', hiff⟩ q hq hmin
    obtain rfl : r = r' := Option.some.inj (hr.symm.trans hr')
    exact ((hfirst q).mp ((hiff q).mpr ⟨hq, hmin⟩)).1.1
  · intro hcounted
    refine ⟨r, by rw [finderNext, hr]; rfl, hr, fun q => (hfirst q).trans ⟨fun hq => ?_, fun hq => ?_⟩⟩
    · refine ⟨hq.1.2, fun q' hlt hq' => ?_⟩
      -- the first aligned place of all is counted, and comes before
      induction q' using Nat.strong_induction_on with
      | _ q' ih =>
        by_cases hmin : ∃ q'' < q', Aligned seps content token q''
        · obtain ⟨q'', hlt', hq''⟩ := hmin
          exact ih q'' hlt' (hlt'.trans hlt) hq''
        · exact hq.2 q' hlt (hcounted q' hq' fun q'' hlt' hq'' => hmin ⟨q'', hlt', hq''⟩) hq'
    · exact ⟨⟨hcounted q hq.1 hq.2, hq.1⟩, fun q' hlt _ => hq.2 q' hlt⟩

/-- In `xa-a a-a xa-a-a` the token `a-a` is not aligned at its first place, and is counted at the first aligned one. -/
theorem findsFirst_counted : FindsFirst [0x2d, 0x20]
    [0x78, 0x61, 0x2d, 0x61, 0x20, 0x61, 0x2d, 0x61, 0x20, 0x78, 0x61, 0x2d, 0x61, 0x2d, 0x61] [0x61, 0x2d, 0x61] := by
  refine (findsFirst_iff_counted (by decide)).mpr fun q hq hmin => ?_
  have hle : q ≤ 5 := not_lt.mp fun h => hmin 5 h (by decide)
  obtain rfl : q = 5 := by
    revert hq
    clear hmin
    revert q
    decide
  have h1 : StandsFirst [0x78, 0x61, 0x2d, 0x61, 0x20, 0x61, 0x2d, 0x61, 0x20, 0x78, 0x61, 0x2d, 0x61, 0x2d, 0x61]
      [0x61, 0x2d, 0x61] 0 1 := ⟨by decide, by decide, by decide⟩
  exact .next h1 (.first ⟨by decide, by decide, by decide⟩)

/-- **An overlapped place is passed over**: in `xa-a-a` the token `a-a` stands behind `x` and behind a separator. -/
theorem not_findsFirst : ¬ FindsFirst [0x2d] [0x78, 0x61, 0x2d, 0x61, 0x2d, 0x61] [0x61, 0x2d, 0x61] := by
  rintro ⟨r, -, hr, hiff⟩
  have hnone : finderOffset [0x2d] [0x78, 0x61, 0x2d, 0x61, 0x2d, 0x61] [0x61, 0x2d, 0x61] 0 = some none := by
    decide +kernel
  obtain rfl : r = none := by simpa [hnone] using hr.symm
  cases (hiff 3).mpr (by decide)

end Finder

end GeminiTS.Index
