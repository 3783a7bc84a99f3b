import GeminiTS.Lib.SplitBytes

/-!
# Scan — the next separator of a line

A separator does not count behind an odd number of backslashes, nor between quotes. Whether backslashes are looked
for at all is decided once for a whole text: `noEscapeChars` is set if it has none (`influx/parser.go`).
-/

namespace GeminiTS.Line.Parser

open Lib List

/-- The separator outside of the first brackets; right behind them if it would be inside. -/
def nextUnescapedCharForTagArray (s : Bytes) (ch : UInt8) : Option ℕ :=
  match indexByte s 0x5b with
  | none => indexByte s ch
  | some lbracket =>
    match indexByte (s.drop lbracket) 0x5d with
    | none => indexByte s ch
    | some r =>
      let rbracket := r + lbracket
      match indexByte s ch with
      | none => none
      | some index =>
        if index < lbracket ∨ rbracket < index then some index
        else if rbracket + 1 = s.length then none
        else some (rbracket + 1)

/-- The next separator, escaped or not. -/
def nextChar (tagArray : Bool) (s : Bytes) (ch : UInt8) : Option ℕ :=
  if tagArray then nextUnescapedCharForTagArray s ch else indexByte s ch

variable {s : Bytes} {ch : UInt8} {n : ℕ} {noEscapeChars : Bool}

theorem nextUnescapedCharForTagArray_lt (h : nextUnescapedCharForTagArray s ch = some n) : n < s.length := by
  rw [nextUnescapedCharForTagArray] at h
  cases hl : indexByte s 0x5b with
  | none =>
    rw [hl] at h
    exact indexByte_lt h
  | some lbracket =>
    rw [hl] at h
    cases hr : indexByte (s.drop lbracket) 0x5d with
    | none =>
      simp only [hr] at h
      exact indexByte_lt h
    | some r =>
      have hlt := indexByte_lt hr
      rw [length_drop] at hlt
      cases hi : indexByte s ch with
      | none => simp [hr, hi] at h
      | some index =>
        have hindex := indexByte_lt hi
        simp only [hr, hi] at h
        split_ifs at h <;> cases h <;> omega

theorem nextChar_lt {tagArray : Bool} (h : nextChar tagArray s ch = some n) : n < s.length := by
  rw [nextChar] at h
  split_ifs at h
  · exact nextUnescapedCharForTagArray_lt h
  · exact indexByte_lt h

/-- How many backslashes stand at the end. -/
def slashes (s : Bytes) : ℕ := (s.reverse.takeWhile (· == 0x5c)).length

/-- Separators behind an odd number of backslashes are passed over. -/
def nextEscapedFree (tagArray : Bool) (s : Bytes) (ch : UInt8) : Option ℕ :=
  match h : nextChar tagArray s ch with
  | none => none
  | some n =>
    if slashes (s.take n) % 2 = 0 then some n
    else (nextEscapedFree tagArray (s.drop (n + 1)) ch).map (n + 1 + ·)
termination_by s.length
decreasing_by
  have := nextChar_lt h
  rw [length_drop]
  omega

def nextUnescapedChar (s : Bytes) (ch : UInt8) (noEscapeChars enableTagArray tagParse : Bool) : Option ℕ :=
  if noEscapeChars then nextChar (enableTagArray && tagParse) s ch
  else nextEscapedFree (enableTagArray && tagParse) s ch

theorem nextEscapedFree_lt {tagArray : Bool} (h : nextEscapedFree tagArray s ch = some n) : n < s.length := by
  fun_induction nextEscapedFree tagArray s ch generalizing n with
  | case1 s hnone => cases h
  | case2 s m hm _ =>
    cases h
    exact nextChar_lt hm
  | case3 s m hm _ ih =>
    obtain ⟨j, hj, rfl⟩ := Option.map_eq_some_iff.mp h
    have hrest := ih hj
    rw [length_drop] at hrest
    omega

theorem nextUnescapedChar_lt {enableTagArray tagParse : Bool}
    (h : nextUnescapedChar s ch noEscapeChars enableTagArray tagParse = some n) : n < s.length := by
  rw [nextUnescapedChar] at h
  split_ifs at h
  · exact nextChar_lt h
  · exact nextEscapedFree_lt h

/-- `isInQuote`: an odd number of quotes, on top of `isQuote`. -/
def isInQuoteFrom (isQuote : Bool) (s : Bytes) (noEscapeChars : Bool) : Bool :=
  match h : nextUnescapedChar s 0x22 noEscapeChars false false with
  | none => isQuote
  | some n => isInQuoteFrom (!isQuote) (s.drop (n + 1)) noEscapeChars
termination_by s.length
decreasing_by
  have := nextUnescapedChar_lt h
  rw [length_drop]
  omega

def isInQuote (s : Bytes) (noEscapeChars : Bool) : Bool := isInQuoteFrom false s noEscapeChars

/-- The next separator that is not between quotes; from one that is, it goes on behind the closing quote. -/
def nextUnquotedFrom (s : Bytes) (ch : UInt8) (noEscapeChars : Bool) : Option ℕ :=
  match _hn : nextUnescapedChar s ch noEscapeChars false false with
  | none => none
  | some n =>
    if isInQuote (s.take n) noEscapeChars then
      match nextUnescapedChar (s.drop (n + 1)) 0x22 noEscapeChars false false with
      | none => none
      | some m => (nextUnquotedFrom ((s.drop (n + 1)).drop (m + 1)) ch noEscapeChars).map (n + 1 + (m + 1) + ·)
    else some n
termination_by s.length
decreasing_by
  have := nextUnescapedChar_lt _hn
  simp only [length_drop]
  omega

def nextUnquotedChar (s : Bytes) (ch : UInt8) (noEscapeChars hasQuotedFields : Bool) : Option ℕ :=
  if hasQuotedFields then nextUnquotedFrom s ch noEscapeChars else nextUnescapedChar s ch noEscapeChars false false

theorem nextUnquotedFrom_lt (h : nextUnquotedFrom s ch noEscapeChars = some n) : n < s.length := by
  fun_induction nextUnquotedFrom s ch noEscapeChars generalizing n with
  | case1 s hnone | case2 s m hm _ hq => cases h
  | case3 s m hm _ q hq ih =>
    obtain ⟨j, hj, rfl⟩ := Option.map_eq_some_iff.mp h
    have hrest := ih hj
    simp only [length_drop] at hrest hq
    omega
  | case4 s m hm _ =>
    cases h
    exact nextUnescapedChar_lt hm

theorem nextUnquotedChar_lt {hasQuotedFields : Bool}
    (h : nextUnquotedChar s ch noEscapeChars hasQuotedFields = some n) : n < s.length := by
  rw [nextUnquotedChar] at h
  split_ifs at h
  · exact nextUnquotedFrom_lt h
  · exact nextUnescapedChar_lt h

/-- Backslashes before separators and backslashes are taken away. -/
def unescapeFrom (s : Bytes) : Bytes :=
  match indexByte s 0x5c with
  | none => s
  | some n =>
    match h : s.drop (n + 1) with
    | [] => s.take n ++ [0x5c]
    | ch :: rest =>
      s.take n ++ (if ch ≠ 0x20 ∧ ch ≠ 0x2c ∧ ch ≠ 0x3d ∧ ch ≠ 0x5c then [0x5c, ch] else [ch]) ++ unescapeFrom rest
termination_by s.length
decreasing_by
  have := congrArg length h
  rw [length_drop, length_cons] at this
  omega

def unescapeTagValue (s : Bytes) (noEscapeChars : Bool) : Bytes := if noEscapeChars then s else unescapeFrom s

/-! ### Without backslashes -/

/-- The text has no backslash. -/
def NoEscape (s : Bytes) : Prop := 0x5c ∉ s

section

variable (h : NoEscape s)

include h

theorem NoEscape.take (n : ℕ) : NoEscape (s.take n) := fun hm => h (mem_of_mem_take hm)

theorem NoEscape.drop (n : ℕ) : NoEscape (s.drop n) := fun hm => h (mem_of_mem_drop hm)

theorem NoEscape.slashes : slashes s = 0 := by
  rw [Parser.slashes]
  cases hr : s.reverse with
  | nil => rfl
  | cons b r =>
    have hb : b ∈ s := mem_reverse.mp (hr ▸ mem_cons_self)
    have hne : ¬ (b == 0x5c) = true := fun hb' => h (by rwa [beq_iff_eq.mp hb'] at hb)
    rw [takeWhile_cons_of_neg (by exact hne)]
    rfl

theorem NoEscape.indexByte : indexByte s 0x5c = none := by
  rw [Lib.indexByte, findIdx?_eq_none_iff]
  intro b hb
  exact beq_eq_false_iff_ne.mpr fun hb' => h (hb' ▸ hb)

theorem nextUnescapedChar_flag (ch : UInt8) (flag enableTagArray tagParse : Bool) :
    nextUnescapedChar s ch flag enableTagArray tagParse = nextChar (enableTagArray && tagParse) s ch := by
  rw [nextUnescapedChar]
  split_ifs
  · rfl
  · rw [nextEscapedFree]
    split
    · next hn => exact hn.symm
    · next n hn => rw [(h.take n).slashes, if_pos rfl, hn]

theorem unescapeTagValue_flag (flag : Bool) : unescapeTagValue s flag = s := by
  rw [unescapeTagValue]
  split_ifs
  · rfl
  · rw [unescapeFrom, h.indexByte]

end

theorem isInQuoteFrom_eq (isQuote : Bool) (s : Bytes) (flag : Bool) : isInQuoteFrom isQuote s flag =
    match nextUnescapedChar s 0x22 flag false false with
    | none => isQuote
    | some n => isInQuoteFrom (!isQuote) (s.drop (n + 1)) flag := by
  rw [isInQuoteFrom]
  split
  · next hn => rw [hn]
  · next n hn => rw [hn]

theorem nextUnquotedFrom_eq (s : Bytes) (ch : UInt8) (flag : Bool) : nextUnquotedFrom s ch flag =
    match nextUnescapedChar s ch flag false false with
    | none => none
    | some n =>
      if isInQuote (s.take n) flag then
        match nextUnescapedChar (s.drop (n + 1)) 0x22 flag false false with
        | none => none
        | some m => (nextUnquotedFrom ((s.drop (n + 1)).drop (m + 1)) ch flag).map (n + 1 + (m + 1) + ·)
      else some n := by
  rw [nextUnquotedFrom]
  split
  · next hn => rw [hn]
  · next n hn => rw [hn]

variable (h : NoEscape s)

include h

theorem nextUnescapedChar_flags (ch : UInt8) (flag flag' enableTagArray tagParse : Bool) :
    nextUnescapedChar s ch flag' enableTagArray tagParse = nextUnescapedChar s ch flag enableTagArray tagParse := by
  rw [nextUnescapedChar_flag h, nextUnescapedChar_flag h]

theorem isInQuoteFrom_flags (isQuote flag flag' : Bool) :
    isInQuoteFrom isQuote s flag' = isInQuoteFrom isQuote s flag := by
  fun_induction isInQuoteFrom isQuote s flag with
  | case1 isQuote s hn => rw [isInQuoteFrom_eq, nextUnescapedChar_flags h _ flag, hn]
  | case2 isQuote s n hn ih =>
    rw [isInQuoteFrom_eq, nextUnescapedChar_flags h _ flag, hn]
    exact ih (h.drop _)

theorem isInQuote_flags (flag flag' : Bool) : isInQuote s flag' = isInQuote s flag :=
  isInQuoteFrom_flags h false flag flag'

theorem nextUnquotedFrom_flags (ch : UInt8) (flag flag' : Bool) :
    nextUnquotedFrom s ch flag' = nextUnquotedFrom s ch flag := by
  fun_induction nextUnquotedFrom s ch flag with
  | case1 s hn => rw [nextUnquotedFrom_eq, nextUnescapedChar_flags h _ flag, hn]
  | case2 s n hn hin hq =>
    rw [nextUnquotedFrom_eq, nextUnescapedChar_flags h _ flag, hn]
    dsimp only
    rw [isInQuote_flags (h.take n) flag, if_pos hin, nextUnescapedChar_flags (h.drop _) _ flag, hq]
  | case3 s n hn hin q hq ih =>
    rw [nextUnquotedFrom_eq, nextUnescapedChar_flags h _ flag, hn]
    dsimp only
    rw [isInQuote_flags (h.take n) flag, if_pos hin, nextUnescapedChar_flags (h.drop _) _ flag, hq]
    dsimp only
    rw [ih ((h.drop _).drop _)]
  | case4 s n hn hin =>
    rw [nextUnquotedFrom_eq, nextUnescapedChar_flags h _ flag, hn]
    dsimp only
    rw [isInQuote_flags (h.take n) flag, if_neg hin]

theorem nextUnquotedChar_flags (ch : UInt8) (flag flag' hasQuotedFields : Bool) :
    nextUnquotedChar s ch flag' hasQuotedFields = nextUnquotedChar s ch flag hasQuotedFields := by
  rw [nextUnquotedChar, nextUnquotedChar, nextUnquotedFrom_flags h _ flag, nextUnescapedChar_flags h _ flag]

end GeminiTS.Line.Parser
