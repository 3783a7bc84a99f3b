import GeminiTS.Index.BloomFilter

/-!
# Phrase — which segments a search for a phrase reads

* `PhraseSearch.shown_iff` — a segment with the phrase is read exactly if its words have the bits of all hashes of
  the phrase, as is the case for plain phrases; `three_words_hidden` is a phrase of three words.
-/

namespace GeminiTS.Index

open Lib List

variable {seps : List UInt8}

/-! ### ASCII texts -/

def Ascii (bs : Bytes) : Prop := ∀ b ∈ bs, b < 0x80

theorem byteTokens_eq (seps : List UInt8) (bs : Bytes) :
    byteTokens seps bs = (words (splitTable seps) bs).map hash := by
  fun_induction byteTokens seps bs with
  | case1 => rw [words_nil, map_nil]
  | case2 b bs hb ih => rw [words_cons_sep hb, ih]
  | case3 b bs hb ih =>
    rw [Bool.not_eq_true] at hb
    rw [words_cons hb, map_cons, ih]

variable {b : UInt8} {content bs token : Bytes} {found : ℕ}

theorem Ascii.isSplit_eq (h : b < 0x80) : isSplit seps b = splitTable seps b := by
  rw [isSplit, decide_eq_true h, Bool.true_and]

theorem Ascii.isChar_eq (h : b < 0x80) : isChar seps b = ! splitTable seps b := by
  rw [isChar, decide_eq_true h, Bool.true_and]

theorem Ascii.of_cons (h : Ascii (b :: bs)) : b < 0x80 ∧ Ascii bs :=
  ⟨h b mem_cons_self, fun c hc => h c (mem_cons_of_mem b hc)⟩

theorem Ascii.takeWhile_isChar (h : Ascii bs) : bs.takeWhile (isChar seps) = bs.takeWhile (! splitTable seps ·) := by
  induction bs with
  | nil => rfl
  | cons b bs ih => rw [takeWhile_cons, takeWhile_cons, isChar_eq h.of_cons.1, ih h.of_cons.2]

theorem Ascii.dropWhile_isChar (h : Ascii bs) : bs.dropWhile (isChar seps) = bs.dropWhile (! splitTable seps ·) := by
  induction bs with
  | nil => rfl
  | cons b bs ih => rw [dropWhile_cons, dropWhile_cons, isChar_eq h.of_cons.1, ih h.of_cons.2]

/-- On ASCII texts both tokenizers find the same words, and what stands in front of them are separators. -/
theorem utf8Tokens_ascii (seps : List UInt8) (h : Ascii bs) (pre : UInt8) : ∃ tokens last,
    utf8Tokens seps pre bs = some (tokens, last) ∧ tokens.map Token.hash = byteTokens seps bs ∧
      (∀ t ∈ tokens, t.preSplitChar = pre ∨ t.preSplitChar ∈ seps) ∧ (last = pre ∨ last ∈ seps) := by
  fun_induction byteTokens seps bs generalizing pre with
  | case1 => exact ⟨[], pre, by rw [utf8Tokens], rfl, fun t ht => absurd ht not_mem_nil, .inl rfl⟩
  | case2 b bs hb ih =>
    obtain ⟨hb80, hbs⟩ := h.of_cons
    obtain ⟨tokens, last, hrun, hhash, hpre, hlast⟩ := ih hbs b
    have hmem : b ∈ seps := of_decide_eq_true hb
    refine ⟨tokens, last, ?_, hhash, fun t ht => .inr ?_, .inr ?_⟩
    · rw [utf8Tokens, Ascii.isSplit_eq hb80, if_pos hb, hrun]
    · exact (hpre t ht).elim (fun heq => heq ▸ hmem) id
    · exact hlast.elim (fun heq => heq ▸ hmem) id
  | case3 b bs hb ih =>
    obtain ⟨hb80, hbs⟩ := h.of_cons
    have hrest : Ascii (bs.dropWhile (! splitTable seps ·)) := fun c hc => hbs c (dropWhile_subset _ hc)
    obtain ⟨tokens, last, hrun, hhash, hpre, hlast⟩ := ih hrest pre
    have hchar : isChar seps b = true := by
      rw [Bool.not_eq_true] at hb
      rw [Ascii.isChar_eq hb80, hb]
      rfl
    refine ⟨⟨hash (b :: bs.takeWhile (isChar seps)), pre⟩ :: tokens, last, ?_, ?_, ?_, hlast⟩
    · rw [utf8Tokens, Ascii.isSplit_eq hb80, if_neg hb, if_pos hchar, hbs.dropWhile_isChar, hrun]
      rfl
    · rw [map_cons, hhash, hbs.takeWhile_isChar]
    · exact forall_mem_cons.mpr ⟨.inl rfl, hpre⟩

/-! ### A phrase in a row -/

/-- Where the finder stops the phrase stands between separators or at an end. -/
theorem found_of_finderNext (hne : token ≠ []) {start : ℕ} (h : finderNext seps content token start = some true) :
    ∃ found, found + token.length ≤ content.length ∧
      token <+: content.drop found ∧ preValid seps content found = some true ∧
        postValid seps content token found = some true := by
  obtain ⟨r, hr, hfound⟩ := Option.map_eq_some_iff.mp h
  obtain ⟨found, rfl⟩ := Option.isSome_iff_exists.mp hfound
  clear h hfound
  fun_induction finderOffset seps content token start with
  | case1 => cases hr
  | case2 start found' h ih =>
    obtain ⟨-, hlen, hat⟩ := indexOf_spec hne h
    simp only [Option.bind_eq_some_iff] at hr
    obtain ⟨pre, hpre, post, hpost, hend⟩ := hr
    split_ifs at hend with hboth
    · rw [Bool.and_eq_true] at hboth
      rw [hboth.1] at hpre
      rw [hboth.2] at hpost
      exact ⟨found', hlen, hat, hpre, hpost⟩
    · exact ih hne hend

section

variable (hcontent : Ascii content)

include hcontent

theorem Ascii.splitTable_of_splitAt {pos : ℕ} (h : splitAt seps content pos = some true) :
    ∃ b ∈ content[pos]?, splitTable seps b = true := by
  obtain ⟨b, hb, hsplit⟩ := Option.map_eq_some_iff.mp h
  have hascii := hcontent b (mem_of_getElem? hb)
  rw [decide_eq_false (UInt8.not_le.mpr hascii)] at hsplit
  exact ⟨b, hb, hsplit⟩

theorem Ascii.bounded_of_preValid (h : preValid seps content found = some true) :
    Bounded (splitTable seps) (content.take found) (content.drop found) := by
  rw [preValid] at h
  split_ifs at h with hzero
  · exact .inl (by rw [hzero, take_zero])
  · obtain ⟨b, hb, hor⟩ := Option.bind_eq_some_iff.mp h
    split_ifs at hor with htrue
    · rw [htrue] at hb
      obtain ⟨c, hc, hsep⟩ := hcontent.splitTable_of_splitAt hb
      refine .inr (.inr (.inl ⟨c, ?_, hsep⟩))
      rw [getLast?_take, if_neg hzero, Option.mem_def.mp hc]
      rfl
    · obtain ⟨c, hc, hsep⟩ := hcontent.splitTable_of_splitAt hor
      refine .inr (.inr (.inr ⟨c, ?_, hsep⟩))
      rwa [head?_drop]

theorem Ascii.bounded_of_postValid (hne : token ≠ []) (hat : token <+: content.drop found)
    (h : postValid seps content token found = some true) :
    Bounded (splitTable seps) token (content.drop (found + token.length)) := by
  have hpos := length_pos_iff.mpr hne
  rw [postValid] at h
  by_cases hend : content.length ≤ found + token.length
  · exact .inr (.inl (drop_eq_nil_of_le hend))
  · have hnonzero : ¬ found + token.length = 0 := by omega
    rw [if_neg hend] at h
    obtain ⟨b, hb, hor⟩ := Option.bind_eq_some_iff.mp h
    split_ifs at hor with htrue
    · rw [htrue] at hb
      obtain ⟨c, hc, hsep⟩ := hcontent.splitTable_of_splitAt hb
      refine .inr (.inr (.inr ⟨c, ?_, hsep⟩))
      rwa [head?_drop]
    · obtain ⟨c, hc, hsep⟩ := hcontent.splitTable_of_splitAt hor
      refine .inr (.inr (.inl ⟨c, ?_, hsep⟩))
      -- the last byte of the phrase
      have hlast : token[token.length - 1]? = (content.drop found)[token.length - 1]? := by
        obtain ⟨rest, hrest⟩ := hat
        rw [← hrest, getElem?_append_left (by omega)]
      rw [getLast?_eq_getElem?, hlast, getElem?_drop,
        show found + (token.length - 1) = found + token.length - 1 by omega]
      exact hc

/-- **The words of the phrase are words of the row.** -/
theorem byteTokens_of_found (hne : token ≠ []) (h : finderNext seps content token 0 = some true) :
    byteTokens seps token ⊆ byteTokens seps content := by
  obtain ⟨found, hlen, hat, hpre, hpost⟩ := found_of_finderNext hne h
  have hfront := hcontent.bounded_of_preValid hpre
  have hback := hcontent.bounded_of_postValid hne hat hpost
  have hdrop : token ++ content.drop (found + token.length) = content.drop found := by
    obtain ⟨rest, hrest⟩ := hat
    rw [← drop_drop, ← hrest, drop_left]
  have hwords : words (splitTable seps) content = words (splitTable seps) (content.take found) ++
      (words (splitTable seps) token ++ words (splitTable seps) (content.drop (found + token.length))) := by
    rw [← words_append hback, hdrop, ← words_append hfront, take_append_drop]
  intro x hx
  rw [byteTokens_eq] at hx ⊢
  rw [hwords, map_append, map_append]
  exact mem_append_right _ (mem_append_left _ hx)

end

/-! ### Hashes of single words -/

namespace Gram

/-- Only hashes of `hs` are put out, and the tokenizer is behind no, one or two words of a group. -/
structure Single (hs : List UInt64) (t : Gram) : Prop where
  hashes : t.allHashes ⊆ hs
  phase : (t.isInit = false ∧ t.currSplitNum = 0 ∧ (t.hashValue = 0 ∨ t.hashValue ∈ hs)) ∨
    (t.isInit = true ∧ t.currSplitNum = 0 ∧ t.hashValue ∈ hs ∧ t.preHash ∈ hs) ∨
    (t.isInit = true ∧ t.currSplitNum = 1 ∧ t.preHash ∈ hs ∧ t.prepreHash ∈ hs)

variable {hs : List UInt64} {t : Gram}

section Step

variable {token : Token} (hne : token.hash ≠ 0)

include hne

theorem step_first (hinit : t.isInit = false) :
    t.step token = { t with hashValue := token.hash, preHash := token.hash, isInit := true } := by
  rw [step, if_neg hne, if_pos hinit]

theorem step_second (hinit : t.isInit = true) (hnum : t.currSplitNum = 0) : t.step token = t.join token := by
  rw [step, if_neg hne, if_neg (by rw [hinit]; decide), if_pos hnum]

theorem step_close (hinit : t.isInit = true) (hnum : t.currSplitNum ≠ 0) (hgap : t.currSplit ≠ token.preSplitChar) :
    t.step token = { t.addHashes token.preSplitChar token.hash with isInit := false } := by
  rw [step, if_neg hne, if_neg (by rw [hinit]; decide), if_neg hnum, if_pos hgap]

end Step

theorem Single.new (hs : List UInt64) : Single hs Gram.new := ⟨nil_subset hs, Or.inl ⟨rfl, rfl, Or.inl rfl⟩⟩

theorem Single.addHashes (h : Single hs t) (hvalue : t.isInit = false → t.hashValue ≠ 0) {pre : UInt8} (hpre : pre ≠ 1)
    (current : UInt64) : (t.addHashes pre current).allHashes ⊆ hs := by
  apply append_subset.mpr
  refine ⟨h.hashes, ?_⟩
  rcases h.phase with ⟨hinit, hnum, hor⟩ | ⟨-, hnum, hmem, -⟩ | ⟨-, hnum, hlast, hbefore⟩
  · rw [if_neg (by omega)]
    exact cons_subset.mpr ⟨hor.resolve_left (hvalue hinit), nil_subset hs⟩
  · rw [if_neg (by omega)]
    exact cons_subset.mpr ⟨hmem, nil_subset hs⟩
  · rw [if_pos hnum, if_neg hpre]
    exact cons_subset.mpr ⟨hlast, cons_subset.mpr ⟨hbefore, nil_subset hs⟩⟩

/-- One step, if a third word has another separator in front of it than the second one. -/
theorem Single.step (h : Single hs t) {token : Token} (hne : token.hash ≠ 0) (hmem : token.hash ∈ hs)
    (hpre : token.preSplitChar ≠ 1) (hgap : t.currSplitNum = 1 → t.currSplit ≠ token.preSplitChar) :
    Single hs (t.step token) ∧ ((t.step token).currSplitNum = 1 → (t.step token).currSplit = token.preSplitChar) := by
  rcases h.phase with ⟨hinit, hnum, -⟩ | ⟨hinit, hnum, -, hlast⟩ | ⟨hinit, hnum, -, -⟩
  · rw [step_first hne hinit]
    refine ⟨⟨h.hashes, .inr (.inl ⟨rfl, hnum, hmem, hmem⟩)⟩, fun hone => ?_⟩
    rw [show t.currSplitNum = 1 from hone] at hnum
    cases hnum
  · rw [step_second hne hinit hnum]
    exact ⟨⟨h.hashes, .inr (.inr ⟨hinit, by rw [join, hnum], hmem, hlast⟩)⟩, fun _ => rfl⟩
  · rw [step_close hne hinit (by omega) (hgap hnum)]
    have hout := h.addHashes (fun hfalse => absurd hinit (by rw [hfalse]; decide)) hpre token.hash
    exact ⟨⟨hout, .inl ⟨rfl, rfl, .inr hmem⟩⟩, fun hone => absurd (show 0 = 1 from hone) (by decide)⟩

/-- All steps, if no word has the separator in front of it that the word before has. -/
theorem Single.foldl {tokens : List Token} (h : Single hs t) (hne : ∀ token ∈ tokens, token.hash ≠ 0)
    (hmem : ∀ token ∈ tokens, token.hash ∈ hs) (hpre : ∀ token ∈ tokens, token.preSplitChar ≠ 1)
    (hfirst : t.currSplitNum = 1 → ∀ token ∈ tokens.head?, t.currSplit ≠ token.preSplitChar)
    (hgaps : (tokens.map Token.preSplitChar).IsChain (· ≠ ·)) : Single hs (tokens.foldl Gram.step t) := by
  induction tokens generalizing t with
  | nil => exact h
  | cons token tokens ih =>
    rw [forall_mem_cons] at hne hmem hpre
    obtain ⟨hstep, hsplit⟩ := h.step hne.1 hmem.1 hpre.1 fun hone => hfirst hone token rfl
    refine ih hstep hne.2 hmem.2 hpre.2 (fun hone next hnext => ?_) ?_
    · rw [hsplit hone]
      obtain ⟨rest, rfl⟩ := head?_eq_some_iff.mp hnext
      exact (isChain_cons_cons.mp hgaps).1
    · cases tokens with
      | nil => exact List.IsChain.nil
      | cons next rest => exact (isChain_cons_cons.mp hgaps).2

theorem allHashes_subset_step (t : Gram) (token : Token) : t.allHashes ⊆ (t.step token).allHashes := by
  rw [step]
  split_ifs
  · exact List.Subset.refl _
  · exact List.Subset.refl _
  · exact List.Subset.refl _
  · exact subset_append_left _ _
  · exact subset_append_left _ _
  · exact List.Subset.refl _

theorem allHashes_subset_foldl (t : Gram) (tokens : List Token) : t.allHashes ⊆ (tokens.foldl step t).allHashes := by
  induction tokens generalizing t with
  | nil => exact List.Subset.refl _
  | cons token tokens ih => exact List.Subset.trans (t.allHashes_subset_step token) (ih _)

theorem allHashes_subset_finish (t : Gram) (pre : UInt8) : t.allHashes ⊆ (t.finish pre).allHashes := by
  rw [finish]
  split_ifs
  · exact subset_append_left _ _
  · exact List.Subset.refl _

theorem foldl_step_filter (t : Gram) (tokens : List Token) :
    tokens.foldl step t = (tokens.filter (·.hash ≠ 0)).foldl step t := by
  induction tokens generalizing t with
  | nil => rfl
  | cons token tokens ih =>
    by_cases hzero : token.hash = 0
    · rw [foldl_cons, filter_cons_of_neg (by simpa using hzero), ← ih, step, if_pos hzero]
    · rw [foldl_cons, filter_cons_of_pos (by simpa using hzero), foldl_cons, ih]

end Gram

open Gram

/-- The words of a phrase are looked up one by one: there is one, two words do not combine to the hash 0, and no two
gaps in a row have the same separator. -/
structure PlainTokens (tokens : List Token) : Prop where
  ne : tokens ≠ []
  pair : ∀ a b, tokens = [a, b] → combine b.hash a.hash ≠ 0
  gaps : (tokens.tail.map Token.preSplitChar).IsChain (· ≠ ·)

/-- **Plain words are looked up one by one.** -/
theorem PlainTokens.finish {tokens : List Token} (h : PlainTokens tokens) (hne : ∀ token ∈ tokens, token.hash ≠ 0)
    (hpre : ∀ token ∈ tokens, token.preSplitChar ≠ 1) {last : UInt8} (hlast : last ≠ 1) :
    ((tokens.foldl step new).finish last).allHashes ⊆ tokens.map Token.hash ∧
      ∃ token ∈ tokens, token.hash ∈ ((tokens.foldl step new).finish last).allHashes := by
  obtain ⟨a, rest, rfl⟩ := exists_cons_of_ne_nil h.ne
  have ha := hne a mem_cons_self
  have hfirst : new.step a = ⟨a.hash, 0, a.hash, 0, 0, true, []⟩ := step_first ha rfl
  constructor
  · have hmem : ∀ token ∈ a :: rest, token.hash ∈ (a :: rest).map Token.hash := fun _ => mem_map_of_mem
    obtain ⟨hstart, -⟩ := (Gram.Single.new ((a :: rest).map Token.hash)).step ha (hmem a mem_cons_self)
      (hpre a mem_cons_self) fun hone => absurd hone (by decide)
    rw [forall_mem_cons] at hne hpre
    have hzero : (new.step a).currSplitNum = 0 := by rw [hfirst]
    have hall := hstart.foldl hne.2 (fun token ht => hmem token (mem_cons_of_mem a ht)) hpre.2
      (fun hone => absurd hone (by rw [hzero]; decide)) h.gaps
    rw [Gram.finish]
    split_ifs with hvalue
    · exact hall.addHashes (fun _ => hvalue) hlast 0
    · exact hall.hashes
  · rw [foldl_cons, hfirst]
    cases rest with
    | nil =>
      refine ⟨a, mem_cons_self, ?_⟩
      rw [foldl_nil, Gram.finish, if_pos ha]
      exact mem_cons_self
    | cons b rest =>
      refine ⟨b, mem_cons_of_mem a mem_cons_self, ?_⟩
      have hb := hne b (mem_cons_of_mem a mem_cons_self)
      have hsecond : (⟨a.hash, 0, a.hash, 0, 0, true, []⟩ : Gram).step b =
          ⟨combine b.hash a.hash, a.hash, b.hash, b.preSplitChar, 1, true, []⟩ := step_second hb rfl rfl
      rw [foldl_cons, hsecond]
      cases rest with
      | nil =>
        rw [foldl_nil, Gram.finish, if_pos (h.pair a b rfl), Gram.addHashes, if_neg hlast]
        exact mem_cons_self
      | cons c rest =>
        -- the third word has another separator in front of it and both words before are put out
        have hc := hne c (by simp)
        have hgap : b.preSplitChar ≠ c.preSplitChar := (isChain_cons_cons.mp h.gaps).1
        have hthird : (⟨combine b.hash a.hash, a.hash, b.hash, b.preSplitChar, 1, true, []⟩ : Gram).step c =
            ⟨c.hash, 0, c.hash, 0, 0, false, [b.hash, a.hash]⟩ := by
          rw [step_close hc rfl Nat.one_ne_zero hgap, addHashes, if_neg (hpre c (by simp))]
          rfl
        apply allHashes_subset_finish
        rw [foldl_cons, hthird]
        apply allHashes_subset_foldl
        exact mem_cons_self

/-! ### Searches -/

/-- A search for a phrase in a column with a skip index. -/
structure PhraseSearch where
  seps : List UInt8
  column : List (Option Bytes)
  rowsPerSegment : List ℕ
  phrase : Bytes

namespace PhraseSearch

variable (s : PhraseSearch)

def segments : List (List (Option Bytes)) := splitColBySize s.column 0 s.rowsPerSegment

/-- The finder finds the phrase in a row. -/
def Contains (segment : List (Option Bytes)) : Prop :=
  ∃ row, some row ∈ segment ∧ finderNext s.seps row s.phrase 0 = some true

/-- If the segment has the phrase it is read. -/
def Shown (blockId : ℕ) : Prop := ∀ segment, s.segments[blockId]? = some segment → s.Contains segment →
    isExist s.seps (genBloomFilterData s.seps s.column s.rowsPerSegment) blockId s.phrase = some true

/-- If the segment has the phrase, the phrase has a hash and the words of the segment have the bits of all its
hashes. -/
def Covered (blockId : ℕ) : Prop := ∀ segment, s.segments[blockId]? = some segment → s.Contains segment →
    ∃ hashes, gramHashes s.seps s.phrase = some hashes ∧ hashes ≠ [] ∧ ∀ h ∈ hashes, Covers s.seps segment h

/-- The words of the phrase as the reader finds them. -/
def tokens : List Token := (((utf8Tokens s.seps 0 s.phrase).map Prod.fst).getD []).filter (·.hash ≠ 0)

/-- The phrase is one of ASCII characters with plain words, and so is a row in which it is found. -/
structure Plain (segment : List (Option Bytes)) : Prop where
  sep_one : 1 ∉ s.seps
  phrase : Ascii s.phrase
  row : ∃ row, some row ∈ segment ∧ Ascii row ∧ finderNext s.seps row s.phrase 0 = some true
  tokens : PlainTokens s.tokens

variable {s}

variable {segment : List (Option Bytes)}

theorem Plain.gramHashes (h : s.Plain segment) :
    ∃ hashes, gramHashes s.seps s.phrase = some hashes ∧ hashes ≠ [] ∧ hashes ⊆ byteTokens s.seps s.phrase := by
  obtain ⟨tokens, last, hrun, hhash, hpre, hlast⟩ := utf8Tokens_ascii s.seps h.phrase 0
  have htokens : s.tokens = tokens.filter (·.hash ≠ 0) := by
    rw [PhraseSearch.tokens, hrun]
    rfl
  have hone : ∀ c : UInt8, c = 0 ∨ c ∈ s.seps → c ≠ 1 := by
    rintro c (hzero | hc) hcone
    · rw [hzero] at hcone
      exact absurd hcone (by decide)
    · exact h.sep_one (hcone ▸ hc)
  have hplain := h.tokens
  rw [htokens] at hplain
  have hne : ∀ token ∈ tokens.filter (·.hash ≠ 0), token.hash ≠ 0 := fun token ht =>
    of_decide_eq_true (mem_filter.mp ht).2
  obtain ⟨hsub, token, htoken, hfound⟩ := hplain.finish hne
    (fun token ht => hone _ (hpre token (mem_of_mem_filter ht))) (hone last hlast)
  rw [← foldl_step_filter] at hsub hfound
  refine ⟨_, by rw [Index.gramHashes, hrun]; rfl, ?_, ?_⟩
  · apply ne_nil_of_mem
    exact mem_filter.mpr ⟨hfound, decide_eq_true (hne token htoken)⟩
  · intro x hx
    obtain ⟨token', htoken', rfl⟩ := mem_map.mp (hsub (mem_of_mem_filter hx))
    rw [← hhash]
    exact mem_map_of_mem (mem_of_mem_filter htoken')

theorem isExist_eq {blockId : ℕ} (hsegment : s.segments[blockId]? = some segment) :
    isExist s.seps (genBloomFilterData s.seps s.column s.rowsPerSegment) blockId s.phrase =
      (Index.gramHashes s.seps s.phrase).map (hitHashes (genFilter s.seps segment)) := by
  have hfilter : (genBloomFilterData s.seps s.column s.rowsPerSegment)[blockId]? = some (genFilter s.seps segment) := by
    rw [genBloomFilterData, getElem?_map, ← segments, hsegment]
    rfl
  rw [isExist, hfilter]
  cases Index.gramHashes s.seps s.phrase <;> rfl

theorem hitHashes_iff (segment : List (Option Bytes)) (hashes : List UInt64) :
    hitHashes (genFilter s.seps segment) hashes = true ↔ hashes ≠ [] ∧ ∀ h ∈ hashes, Covers s.seps segment h := by
  rw [hitHashes, Bool.and_eq_true, decide_eq_true_iff, all_eq_true]
  exact and_congr_right fun _ => forall₂_congr fun h _ => hit_genFilter_iff s.seps segment h

theorem Plain.hashed {segment : List (Option Bytes)} (h : s.Plain segment) : ∃ hashes,
    Index.gramHashes s.seps s.phrase = some hashes ∧ hashes ≠ [] ∧ ∀ h ∈ hashes, Covers s.seps segment h := by
  obtain ⟨hashes, hhashes, hne, hsub⟩ := h.gramHashes
  obtain ⟨row, hrow, hascii, hfound⟩ := h.row
  refine ⟨hashes, hhashes, hne, fun x hx => covers_of_mem hrow ?_⟩
  have hphrase : s.phrase ≠ [] := by
    intro hnil
    have hmem := hsub hx
    rw [hnil, byteTokens] at hmem
    cases hmem
  exact byteTokens_of_found hascii hphrase hfound (hsub hx)

variable (s)

/-- **A segment with the phrase is read** exactly if its words have the bits of all hashes of the phrase, and for
plain phrases they have. -/
theorem shown_iff (blockId : ℕ) : (s.Shown blockId ↔ s.Covered blockId) ∧
    ((∀ segment, s.segments[blockId]? = some segment → s.Contains segment → s.Plain segment) → s.Covered blockId) := by
  constructor
  · refine forall_congr' fun segment => imp_congr_ctx Iff.rfl fun hsegment => imp_congr_right fun _ => ?_
    rw [isExist_eq hsegment, Option.map_eq_some_iff]
    exact exists_congr fun hashes => and_congr_right fun _ => hitHashes_iff segment hashes
  · intro hplain segment hsegment hcontains
    exact (hplain segment hsegment hcontains).hashed

/-- One row `a b c`, and the phrase `a b c`. -/
def threeWords : PhraseSearch := ⟨[32], [some [97, 32, 98, 32, 99]], [1], [97, 32, 98, 32, 99]⟩

/-- The row contains the phrase, but its segment is not read: the hash of the three words together is not in the
filter. -/
theorem three_words_hidden : finderNext [32] [97, 32, 98, 32, 99] [97, 32, 98, 32, 99] 0 = some true ∧
    isExist threeWords.seps (genBloomFilterData threeWords.seps threeWords.column threeWords.rowsPerSegment) 0
      threeWords.phrase = some false := by
  decide +kernel

end PhraseSearch

end GeminiTS.Index
