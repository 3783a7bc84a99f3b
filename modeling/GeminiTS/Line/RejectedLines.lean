import GeminiTS.Line.Parser

/-!
# RejectedLines — which rejected lines a request reports

The rows of a text are those of its lines, each as if it were a text of its own: a line without a backslash is read
in the same way whether backslashes are looked for or not. The error is the one of the last line only.

* `reports_iff` — a text reports its rejected lines exactly if, when there is one, the last line is one.
-/

namespace GeminiTS.Line.Parser

open Lib List

variable (lib : Libs)

/-! ### Lines without backslashes -/

variable {s : Bytes}

theorem NoEscape.dropWhile (h : NoEscape s) (p : UInt8 → Bool) : NoEscape (s.dropWhile p) :=
  fun hm => h ((dropWhile_suffix p).subset hm)

theorem unmarshalTags_eq (s : Bytes) (flag ta : Bool) : unmarshalTags s flag ta =
    match nextUnescapedChar s 0x2c flag ta true with
    | none => do
      let tag ← Tag.unmarshal s flag ta
      return nonEmptyTag tag
    | some n => do
      let tag ← Tag.unmarshal (s.take n) flag ta
      let tags ← unmarshalTags (s.drop (n + 1)) flag ta
      return nonEmptyTag tag ++ tags := by
  rw [unmarshalTags]
  split
  · next hn => rw [hn]
  · next n hn => rw [hn]

theorem unmarshalInfluxFields_eq (s : Bytes) (flag quoted : Bool) : unmarshalInfluxFields lib s flag quoted =
    match nextUnquotedChar s 0x2c flag quoted with
    | none => do
      let f ← Field.unmarshal lib s flag quoted
      return [f]
    | some n => do
      let f ← Field.unmarshal lib (s.take n) flag quoted
      let fs ← unmarshalInfluxFields lib (s.drop (n + 1)) flag quoted
      return f :: fs := by
  rw [unmarshalInfluxFields]
  split
  · next hn => rw [hn]
  · next n hn => rw [hn]

section Flags

variable {s : Bytes} (h : NoEscape s) (flag flag' : Bool)
include h

theorem Tag.unmarshal_flags (ta : Bool) : Tag.unmarshal s flag' ta = Tag.unmarshal s flag ta := by
  rw [Tag.unmarshal, Tag.unmarshal, nextUnescapedChar_flags h _ flag]
  cases nextUnescapedChar s 0x3d flag ta false with
  | none => rfl
  | some n =>
    dsimp only
    rw [unescapeTagValue_flag (h.take n), unescapeTagValue_flag (h.take n), unescapeTagValue_flag (h.drop _),
      unescapeTagValue_flag (h.drop _)]

theorem unmarshalTags_flags (ta : Bool) : unmarshalTags s flag' ta = unmarshalTags s flag ta := by
  fun_induction unmarshalTags s flag ta with
  | case1 s hn => rw [unmarshalTags_eq, nextUnescapedChar_flags h _ flag, hn, Tag.unmarshal_flags h flag]
  | case2 s n hn ih =>
    rw [unmarshalTags_eq, nextUnescapedChar_flags h _ flag, hn]
    dsimp only
    rw [Tag.unmarshal_flags (h.take n) flag, ih (h.drop _)]

theorem Field.unmarshal_flags (quoted : Bool) :
    Field.unmarshal lib s flag' quoted = Field.unmarshal lib s flag quoted := by
  rw [Field.unmarshal, Field.unmarshal, nextUnescapedChar_flags h _ flag]
  cases nextUnescapedChar s 0x3d flag false false with
  | none => rfl
  | some n =>
    dsimp only
    rw [unescapeTagValue_flag (h.take n), unescapeTagValue_flag (h.take n),
      nextUnescapedChar_flags (h.drop n) _ flag flag']

theorem unmarshalInfluxFields_flags (quoted : Bool) :
    unmarshalInfluxFields lib s flag' quoted = unmarshalInfluxFields lib s flag quoted := by
  fun_induction unmarshalInfluxFields lib s flag quoted with
  | case1 s hn =>
    rw [unmarshalInfluxFields_eq, nextUnquotedChar_flags h _ flag, hn, Field.unmarshal_flags lib h flag]
  | case2 s n hn ih =>
    rw [unmarshalInfluxFields_eq, nextUnquotedChar_flags h _ flag, hn]
    dsimp only
    rw [Field.unmarshal_flags lib (h.take n) flag, ih (h.drop _)]

theorem unmarshalSeries_flags (ta : Bool) : unmarshalSeries lib s flag' ta = unmarshalSeries lib s flag ta := by
  rw [unmarshalSeries, unmarshalSeries, nextUnescapedChar_flags h _ flag]
  cases hn : nextUnescapedChar s 0x2c flag ta false with
  | none =>
    simp only [pure_bind, unescapeTagValue_flag h]
  | some n =>
    simp only [pure_bind, unescapeTagValue_flag (h.take n), unmarshalTags_flags (h.drop _) flag]

theorem unmarshalValues_flags (ta : Bool) : unmarshalValues lib s flag' ta = unmarshalValues lib s flag ta := by
  rw [unmarshalValues, unmarshalValues, nextUnescapedChar_flags h _ flag]
  rw [nextUnquotedChar_flags h _ flag, unmarshalInfluxFields_flags lib h flag]
  split
  · rfl
  · next n hn => rw [unmarshalInfluxFields_flags lib (h.take n) flag]

/-- **Without a backslash the flag does not matter.** -/
theorem Row.unmarshal_flags (ta : Bool) : Row.unmarshal lib s flag' ta = Row.unmarshal lib s flag ta := by
  rw [Row.unmarshal, Row.unmarshal]
  have hs := h.dropWhile fun b => b == 0x20 || b == 0x09 || b == 0x00
  rw [nextUnescapedChar_flags hs _ flag]
  split
  · rfl
  · next n hn =>
    have hrest : NoEscape (stripLeadingWhitespace ((s.dropWhile fun b => b == 0x20 || b == 0x09 || b == 0x00).drop
      (n + 1))) := (hs.drop _).dropWhile _
    rw [unmarshalSeries_flags lib (hs.take n) flag, unmarshalValues_flags lib hrest flag]

end Flags

/-! ### All lines -/

/-- The lines of a text. -/
def lines (text : Bytes) : List Bytes := splitAll 0x0a text

variable (text : Bytes) (ta : Bool)

/-- The row of a line of the text, if it is not skipped and accepted. -/
def accepted (line : Bytes) : Option Row :=
  if isSkipped line then none else (Row.unmarshal lib (content line) (hasNoEscapeChars text) ta).toOption

/-- The line is neither skipped nor accepted. -/
def Rejected (line : Bytes) : Prop := isSkipped line = false ∧ accepted lib text ta line = none

variable {line : Bytes} (dst : List Row)

theorem unmarshalRow_eq (line : Bytes) :
    (unmarshalRow lib dst line (hasNoEscapeChars text) ta).1 = dst ++ (accepted lib text ta line).toList ∧
    ((unmarshalRow lib dst line (hasNoEscapeChars text) ta).2 ≠ none ↔ Rejected lib text ta line) := by
  rw [unmarshalRow, Rejected, accepted]
  cases hskip : isSkipped line with
  | true => simp
  | false =>
    cases Row.unmarshal lib (content line) (hasNoEscapeChars text) ta with
    | error e | ok row => simp [Except.toOption]

theorem filterMap_accepted_cons (line : Bytes) (rest : List Bytes) : (line :: rest).filterMap (accepted lib text ta) =
      (accepted lib text ta line).toList ++ rest.filterMap (accepted lib text ta) := by
  cases h : accepted lib text ta line with
  | none => rw [filterMap_cons_none h, Option.toList_none, nil_append]
  | some row => rw [filterMap_cons_some h, Option.toList_some, singleton_append]

theorem accepted_nil : accepted lib text ta [] = none := rfl

/-- **The rows of all lines, and the error of the last one.** -/
theorem unmarshalLines_eq (err : Option LineError) (s : Bytes) :
    (unmarshalLines lib dst err s (hasNoEscapeChars text) ta).1 = dst ++ (lines s).filterMap (accepted lib text ta) ∧
    ((unmarshalLines lib dst err s (hasNoEscapeChars text) ta).2 ≠ none ↔
      if s = [] then err ≠ none else Rejected lib text ta (lastPart 0x0a s)) := by
  generalize hflag : hasNoEscapeChars text = flag
  fun_induction unmarshalLines lib dst err s flag ta with
  | case1 dst err =>
    refine ⟨?_, Iff.rfl⟩
    show dst = dst ++ filterMap (accepted lib text ta) [[]]
    rw [filterMap_accepted_cons, accepted_nil, filterMap_nil, Option.toList_none, append_nil, append_nil]
  | case2 dst err s hs hn =>
    subst hflag
    obtain ⟨hrows, herr⟩ := unmarshalRow_eq lib text ta dst s
    rw [if_neg hs, lastPart_of_none hn, lines, splitAll_of_none hn]
    refine ⟨?_, herr⟩
    rw [hrows, filterMap_accepted_cons, filterMap_nil, append_nil]
  | case3 dst err s hs n hn dst' err' hrow ih =>
    subst hflag
    obtain ⟨hrows, herr⟩ := unmarshalRow_eq lib text ta dst (s.take n)
    rw [hrow] at hrows herr
    dsimp only at hrows
    rw [lastPart_of_some hn, lines, splitAll_of_some hn]
    refine ⟨?_, ?_⟩
    · rw [ih.1, hrows, filterMap_accepted_cons, append_assoc]
      rfl
    · rw [ih.2]
      split_ifs
      · exact herr
      · exact Iff.rfl

theorem unmarshalRows_error : (unmarshalRows lib text ta).2 ≠ none ↔ Rejected lib text ta (lastPart 0x0a text) := by
  rw [unmarshalRows, (unmarshalLines_eq lib text ta [] none text).2]
  split_ifs with h
  · subst h
    exact ⟨fun h => absurd rfl h, fun h => absurd h.1 (by decide)⟩
  · exact Iff.rfl

theorem noEscape_iff : hasNoEscapeChars s = true ↔ NoEscape s := by
  constructor
  · intro h hm
    rw [hasNoEscapeChars, Option.isNone_iff_eq_none, indexByte, findIdx?_eq_none_iff] at h
    exact Bool.noConfusion ((h _ hm).symm.trans (beq_self_eq_true _))
  · intro h
    rw [hasNoEscapeChars, h.indexByte]
    rfl

theorem NoEscape.content (h : NoEscape line) : NoEscape (content line) := by
  rw [Parser.content]
  split_ifs
  · exact fun hm => h ((dropLast_sublist line).subset hm)
  · exact h

variable {text}

theorem accepted_own (hline : line ∈ lines text) : accepted lib text ta line = accepted lib line ta line := by
  have hflag : Row.unmarshal lib (content line) (hasNoEscapeChars text) ta =
      Row.unmarshal lib (content line) (hasNoEscapeChars line) ta := by
    by_cases hesc : NoEscape line
    · exact Row.unmarshal_flags lib hesc.content _ _ ta
    · have htext : ¬ NoEscape text := fun h => hesc fun hm => h (mem_of_mem_splitAll hline hm).1
      rw [← noEscape_iff, Bool.not_eq_true] at hesc htext
      rw [hesc, htext]
  rw [accepted, accepted, hflag]

theorem unmarshalRows_own {row : Row} (hline : line ∈ lines text) (h : accepted lib text ta line = some row) :
    unmarshalRows lib line ta = ([row], none) := by
  have hn : indexByte line 0x0a = none := indexByte_of_mem_splitAll hline
  rw [accepted_own lib ta hline] at h
  have hrows := (unmarshalLines_eq lib line ta [] none line).1
  have herr := unmarshalRows_error lib line ta
  rw [lines, splitAll_of_none hn, filterMap_accepted_cons, h] at hrows
  rw [lastPart_of_none hn, Rejected, h] at herr
  refine Prod.ext hrows ?_
  by_contra hne
  cases (herr.mp hne).2

variable (text)

/-- A request as it should be: the rows of the accepted lines, each as if it were alone, and an error exactly if a
line was rejected. -/
structure Reports : Prop where
  rows : (unmarshalRows lib text ta).1 = (lines text).filterMap (accepted lib text ta)
  own : ∀ line ∈ lines text, ∀ row, accepted lib text ta line = some row → unmarshalRows lib line ta = ([row], none)
  error : (unmarshalRows lib text ta).2 ≠ none ↔ ∃ line ∈ lines text, Rejected lib text ta line

/-- **The rows are always right; the rejected lines are reported exactly if the last line is one of them.** -/
theorem reports_iff : Reports lib text ta ↔
    ((∃ line ∈ lines text, Rejected lib text ta line) → Rejected lib text ta (lastPart 0x0a text)) := by
  constructor
  · intro h hex
    rw [← unmarshalRows_error]
    exact h.error.mpr hex
  · intro h
    exact {
      rows := (unmarshalLines_eq lib text ta [] none text).1
      own := fun line hline row hrow => unmarshalRows_own lib ta hline hrow
      error := by
        rw [unmarshalRows_error]
        exact ⟨fun hlast => ⟨_, lastPart_mem 0x0a text, hlast⟩, h⟩ }

/-- Numbers are not needed for these lines. -/
def plainLibs : Libs := ⟨fun _ => none, fun _ => 0, fun _ => 0, id⟩

/-- The line `m`, which has no fields, and the line `m v=t`. -/
def lostLine : Bytes := [0x6d, 0x0a, 0x6d, 0x20, 0x76, 0x3d, 0x74]

/-- The first line is rejected, the second accepted: its row is returned and no error. -/
theorem lost_line_unreported : unmarshalRows plainLibs lostLine false =
      ([⟨false, -100, [0x6d], [], [⟨[0x76], one, [], .boolean⟩], [], [], [], false⟩], none) ∧
    Rejected plainLibs lostLine false [0x6d] ∧ ¬ Reports plainLibs lostLine false := by
  have hrows : unmarshalRows plainLibs lostLine false =
      ([⟨false, -100, [0x6d], [], [⟨[0x76], one, [], .boolean⟩], [], [], [], false⟩], none) := by decide +kernel
  have hrejected : Rejected plainLibs lostLine false [0x6d] := ⟨by decide +kernel, by decide +kernel⟩
  refine ⟨hrows, hrejected, fun h => ?_⟩
  have herr := h.error.mpr ⟨[0x6d], by decide, hrejected⟩
  rw [hrows] at herr
  exact herr rfl

end GeminiTS.Line.Parser
