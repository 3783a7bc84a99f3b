import GeminiTS.Text.Tokenizer

/-!
# Words — the words of a log line and the keys made of them
-/

namespace GeminiTS.Text

open Lib List

/-- The number of bytes of the character that a byte beyond ASCII starts. -/
def charBytes (c : UInt8) : ℕ := if c < 0xe0 then 2 else if c < 0xf0 then 3 else 4

/-- What the tokenizer takes for a word. -/
def IsWord (w : Bytes) : Prop :=
  (w ≠ [] ∧ ∀ b ∈ w, isChar b = true) ∨ ∃ c cs, w = c :: cs ∧ ¬ c < 0x80 ∧ c < 0xf8 ∧ w.length = charBytes c

/-! ### The tokens are words -/

variable {c : UInt8} {w : Bytes}

theorem isWord_takeWhile (hc : isChar c = true) (bs : Bytes) : IsWord ((c :: bs).takeWhile isChar) := by
  refine .inl ⟨?_, fun b hb => mem_takeWhile_imp hb⟩
  rw [takeWhile_cons_of_pos hc]
  exact cons_ne_nil _ _

theorem isWord_take {bs : Bytes} (h80 : ¬ c < 0x80) (hf8 : c < 0xf8) (hlen : charBytes c ≤ bs.length + 1) :
    IsWord ((c :: bs).take (charBytes c)) := by
  have hpos : charBytes c = charBytes c - 1 + 1 := by
    unfold charBytes
    split_ifs <;> rfl
  refine .inr ⟨c, bs.take (charBytes c - 1), ?_, h80, hf8, ?_⟩
  · rw [hpos, take_succ_cons, Nat.add_sub_cancel]
  · rw [length_take, length_cons, min_eq_left hlen]

variable {data rest a : Bytes} {rounds calls : ℕ} {b : Bytes}

/-- What the loop of `Next` finds is a word, unless it is cut off. -/
theorem isWord_of_scan {stop start fin : ℕ} (h : scan data rounds stop stop = .ok (start, fin)) (hne : start ≠ fin)
    (hfin : fin ≤ data.length) : IsWord ((data.take fin).drop start) := by
  induction rounds generalizing stop with
  | zero => cases h
  | succ rounds ih =>
    rw [scan] at h
    split_ifs at h with hlt
    · rw [getElem?_eq_getElem hlt] at h
      obtain ⟨c, hc⟩ : ∃ c, data[stop] = c := ⟨_, rfl⟩
      have hdrop : data.drop stop = c :: data.drop (stop + 1) := by rw [← hc]; exact drop_eq_getElem_cons hlt
      have htake (k : ℕ) : (data.take (stop + k)).drop stop = (c :: data.drop (stop + 1)).take k := by
        rw [drop_take, ← hdrop, Nat.add_sub_cancel_left]
      -- A character of several bytes.
      have hmulti (hs : ¬ isSplit c = true) (hch : ¬ isChar c = true) (hf8 : c < 0xf8)
          (hf : stop + charBytes c ≤ data.length) : IsWord ((data.take (stop + charBytes c)).drop stop) := by
        rw [htake]
        refine isWord_take (not_ascii (Bool.eq_false_iff.mpr hs) (Bool.eq_false_iff.mpr hch)) hf8 ?_
        rw [length_drop]
        omega
      simp only [hc] at h
      split_ifs at h with hsplit hchar h2 h3 h4
      · exact ih h
      · cases h
        rw [charEnd, htake, hdrop, ← prefix_iff_eq_take.mp ( takeWhile_prefix _)]
        exact isWord_takeWhile hchar _
      · cases h
        have hb : charBytes c = 2 := by rw [charBytes, if_pos h2]
        have hlt : c < 0xf8 := UInt8.lt_trans h2 (by decide)
        rw [← hb] at hfin ⊢
        exact hmulti hsplit hchar hlt hfin
      · cases h
        have hb : charBytes c = 3 := by rw [charBytes, if_neg h2, if_pos h3]
        have hlt : c < 0xf8 := UInt8.lt_trans h3 (by decide)
        rw [← hb] at hfin ⊢
        exact hmulti hsplit hchar hlt hfin
      · cases h
        have hb : charBytes c = 4 := by rw [charBytes, if_neg h2, if_neg h3]
        rw [← hb] at hfin ⊢
        exact hmulti hsplit hchar h4 hfin
      · exact ih h
    · cases h
      exact absurd rfl hne

theorem isWord_of_next {token : Bytes} (h : next rounds data = .ok (some (token, rest))) : IsWord token := by
  unfold next at h
  split_ifs at h with h0
  · cases h
  · cases hscan : scan data rounds 0 0 with
    | error e =>
      rw [hscan] at h
      cases h
    | ok x =>
      obtain ⟨start, fin⟩ := x
      rw [hscan] at h
      change (if start = fin ∨ fin > data.length then _ else _) = _ at h
      split_ifs at h with hend
      · cases h
      · rw [not_or] at hend
        rw [slice] at h
        split_ifs at h with hslice
        · rw [slice] at h
          split_ifs at h with hslice'
          · cases h
            exact isWord_of_scan hscan hend.1 (by omega)
          · cases h
        · cases h

theorem isWord_of_tokenizer {tokens : List Bytes} (h : tokenizer rounds calls data = .ok tokens) :
    ∀ w ∈ tokens, IsWord w := by
  induction calls generalizing data tokens with
  | zero => cases h
  | succ calls ih =>
    rw [tokenizer] at h
    cases hnext : next rounds data with
    | error e =>
      rw [hnext] at h
      cases h
    | ok x =>
      rw [hnext] at h
      cases x with
      | none =>
        cases h
        exact fun w hw => absurd hw not_mem_nil
      | some x =>
        change (tokenizer rounds calls x.2 >>= fun ts => pure (x.1 :: ts)) = _ at h
        cases hrest : tokenizer rounds calls x.2 with
        | error e =>
          rw [hrest] at h
          cases h
        | ok tokens =>
          rw [hrest] at h
          cases h
          intro w hw
          rcases mem_cons.mp hw with rfl | hw
          · exact isWord_of_next hnext
          · exact ih hrest w hw

/-! ### Log lines -/

/-- A line on which the tokenizer ends. -/
structure Log where
  bytes : Bytes
  readable : Readable bytes

/-- `Tokenizer`, with rounds enough for the line. -/
def Log.words (l : Log) : List Bytes :=
  match tokenizer (l.bytes.length + 1) (l.bytes.length + 1) l.bytes with
  | .ok tokens => tokens
  | .error _ => []

theorem Log.tokenizer_eq (l : Log) : tokenizer (l.bytes.length + 1) (l.bytes.length + 1) l.bytes = .ok l.words := by
  obtain ⟨tokens, h, -⟩ := tokenizer_readable l.readable (Nat.lt_succ_self _) (Nat.lt_succ_self _)
  rw [Log.words, h]

theorem Log.isWord (l : Log) : ∀ w ∈ l.words, IsWord w := isWord_of_tokenizer l.tokenizer_eq

/-! ### A line with given words -/

theorem IsWord.cases_head (h : IsWord w) : ∃ c cs, w = c :: cs ∧ (isChar c = true ∧ (∀ b ∈ w, isChar b = true) ∨
      ¬ c < 0x80 ∧ c < 0xf8 ∧ w.length = charBytes c) := by
  rcases h with ⟨hne, hall⟩ | ⟨c, cs, rfl, h⟩
  · obtain ⟨c, cs, rfl⟩ := exists_cons_of_ne_nil hne
    exact ⟨c, cs, rfl, .inl ⟨hall c mem_cons_self, hall⟩⟩
  · exact ⟨c, cs, rfl, .inr h⟩

theorem takeWhile_isChar (h : ∀ b ∈ w, isChar b = true) (hrest : rest.takeWhile isChar = []) :
    (w ++ rest).takeWhile isChar = w := by
  rw [takeWhile_append_of_pos h, hrest, append_nil]

theorem isChar_of_not_lt (h : ¬ c < 0x80) : isChar c = false := Bool.eq_false_iff.mpr fun hc => h (isChar_ascii hc)

theorem isSplit_of_not_lt (h : ¬ c < 0x80) : isSplit c = false := Bool.eq_false_iff.mpr fun hc => h (isSplit_ascii hc)

theorem isSplit_of_isChar (h : isChar c = true) : isSplit c = false := by
  simp only [isChar, Bool.and_eq_true, Bool.not_eq_true'] at h
  rw [isSplit, h.2, Bool.and_false]

/-- The words, each behind a blank. -/
def joined (ws : List Bytes) : Bytes := ws.flatMap (0x20 :: ·)

theorem takeWhile_joined (ws : List Bytes) : (joined ws).takeWhile isChar = [] := by
  cases ws with
  | nil => rfl
  | cons w ws => exact takeWhile_cons_of_neg (by decide)

/-- The loop of `Next` passes over the blank and stops behind the word. -/
theorem scan_joined (hw : IsWord w) (ws : List Bytes) (rounds : ℕ) :
    scan (0x20 :: (w ++ joined ws)) (rounds + 2) 0 0 = .ok (1, w.length + 1) := by
  obtain ⟨c, cs, rfl, h⟩ := hw.cases_head
  rw [scan, if_pos (by simp)]
  change (if isSplit c = true then _ else if isChar c = true then _ else _) = _
  rcases h with ⟨hc, hall⟩ | ⟨h80, hf8, hlen⟩
  · rw [if_neg (by rw [isSplit_of_isChar hc]; exact Bool.false_ne_true), if_pos hc, charEnd, drop_succ_cons,
      drop_zero, takeWhile_isChar hall (takeWhile_joined ws), Nat.add_comm (c :: cs).length 1]
  · rw [if_neg (by rw [isSplit_of_not_lt h80]; exact Bool.false_ne_true),
      if_neg (by rw [isChar_of_not_lt h80]; exact Bool.false_ne_true), hlen, charBytes]
    split_ifs <;> rfl

theorem next_joined (hw : IsWord w) (ws : List Bytes) (rounds : ℕ) :
    next (rounds + 2) (joined (w :: ws)) = .ok (some (w, joined ws)) := by
  have hpos : w.length ≠ 0 := by
    obtain ⟨c, cs, rfl, -⟩ := hw.cases_head
    exact Nat.succ_ne_zero _
  change next (rounds + 2) (0x20 :: (w ++ joined ws)) = _
  have hlen : (0x20 :: (w ++ joined ws)).length = w.length + (joined ws).length + 1 := by
    rw [length_cons, length_append]
  unfold next
  rw [scan_joined hw]
  change (if 1 = w.length + 1 ∨ w.length + 1 > _ then _ else _) = _
  rw [if_neg (by rw [hlen]; omega), slice, if_pos (by rw [hlen]; omega), slice, if_pos (by rw [hlen]; omega), hlen]
  change Except.ok (some (_, _)) = _
  rw [take_of_length_le (le_of_eq hlen), take_succ_cons, drop_succ_cons, drop_zero,
    take_left, drop_succ_cons, drop_left]

theorem tokenizer_joined {ws : List Bytes} (hws : ∀ w ∈ ws, IsWord w) (rounds : ℕ) (h : ws.length < calls) :
    tokenizer (rounds + 2) calls (joined ws) = .ok ws := by
  induction ws generalizing calls with
  | nil =>
    obtain ⟨calls, rfl⟩ : ∃ n, calls = n + 1 := ⟨calls - 1, by omega⟩
    rfl
  | cons w ws ih =>
    obtain ⟨calls, rfl⟩ : ∃ n, calls = n + 1 := ⟨calls - 1, by omega⟩
    rw [tokenizer, next_joined (hws w mem_cons_self)]
    change (tokenizer (rounds + 2) calls (joined ws) >>= fun ts => pure (w :: ts)) = _
    rw [ih (forall_mem_cons.mp hws).2 (Nat.lt_of_succ_lt_succ h)]
    rfl

theorem length_le_joined (ws : List Bytes) : ws.length ≤ (joined ws).length := by
  induction ws with
  | nil => exact le_refl _
  | cons w ws ih =>
    change _ ≤ (0x20 :: (w ++ joined ws)).length
    rw [length_cons, length_cons, length_append]
    omega

theorem exists_log {ws : List Bytes} (hws : ∀ w ∈ ws, IsWord w) : ∃ l : Log, l.words = ws := by
  have hread : Readable (joined ws) := by
    by_contra hread
    have h := tokenizer_joined hws 0 (Nat.lt_succ_self ws.length)
    rw [tokenizer_stuck hread] at h
    cases h
  refine ⟨⟨joined ws, hread⟩, ?_⟩
  have hlen := length_le_joined ws
  rw [Log.words]
  cases ws with
  | nil => rfl
  | cons w ws =>
    obtain ⟨n, hn⟩ : ∃ n, (joined (w :: ws)).length + 1 = n + 2 := ⟨(joined (w :: ws)).length - 1, by
      rw [length_cons] at hlen
      omega⟩
    simp only [hn]
    rw [tokenizer_joined hws n (by omega)]

/-! ### Keys -/

/-- The text of a group of words: each word with a blank after it. -/
def vtoken (ws : List Bytes) : Bytes := ws.flatMap (· ++ [0x20])

theorem vtoken_cons (w : Bytes) (ws : List Bytes) : vtoken (w :: ws) = w ++ 0x20 :: vtoken ws := by
  rw [vtoken, flatMap_cons, append_assoc]
  rfl

theorem vtoken_append (ws vs : List Bytes) : vtoken (ws ++ vs) = vtoken ws ++ vtoken vs := flatMap_append

theorem IsWord.eq_of_append {v : Bytes} (hw : IsWord w) (hv : IsWord v) (h : w ++ 0x20 :: a = v ++ 0x20 :: b) :
    w = v := by
  have hblank (a : Bytes) : (0x20 :: a).takeWhile isChar = [] := takeWhile_cons_of_neg (by decide)
  obtain ⟨c, cs, rfl, hc⟩ := hw.cases_head
  obtain ⟨d, ds, rfl, hd⟩ := hv.cases_head
  obtain rfl : c = d := (cons.inj h).1
  rcases hc with ⟨hc, hcall⟩ | ⟨hc, -, hclen⟩
  · rcases hd with ⟨-, hdall⟩ | ⟨hd, -, -⟩
    · rw [← takeWhile_isChar hcall (hblank a), h, takeWhile_isChar hdall (hblank b)]
    · exact absurd (isChar_ascii hc) hd
  · rcases hd with ⟨hd, -⟩ | ⟨-, -, hdlen⟩
    · exact absurd (isChar_ascii hd) hc
    · exact (append_inj h (hclen.trans hdlen.symm)).1

theorem IsWord.head_ne_tab (hw : IsWord w) : w ++ a ≠ 9 :: b := by
  obtain ⟨c, cs, rfl, h⟩ := hw.cases_head
  intro heq
  obtain rfl : c = 9 := (cons.inj heq).1
  rcases h with ⟨h, -⟩ | ⟨h, -⟩
  · exact absurd h (by decide)
  · exact h (by decide)

variable {ws vs : List Bytes} (hws : ∀ w ∈ ws, IsWord w) (hvs : ∀ v ∈ vs, IsWord v)

include hws hvs

theorem vtoken_prefix_iff (rest : Bytes) : vtoken ws <+: vtoken vs ++ 9 :: rest ↔ ws <+: vs := by
  constructor
  · intro h
    induction ws generalizing vs with
    | nil => exact nil_prefix
    | cons w ws ih =>
      have hw := hws w mem_cons_self
      cases vs with
      | nil =>
        obtain ⟨t, ht⟩ := h
        rw [vtoken_cons, append_assoc] at ht
        exact absurd ht hw.head_ne_tab
      | cons v vs =>
        obtain ⟨t, ht⟩ := h
        rw [vtoken_cons, vtoken_cons, append_assoc, append_assoc] at ht
        obtain rfl := hw.eq_of_append (hvs v mem_cons_self) ht
        refine cons_prefix_cons.mpr ⟨rfl, ?_⟩
        refine ih (forall_mem_cons.mp hws).2 (forall_mem_cons.mp hvs).2 ⟨t, ?_⟩
        exact (cons.inj (append_cancel_left ht)).2
  · rintro ⟨us, rfl⟩
    rw [vtoken_append, append_assoc]
    exact prefix_append _ _

theorem vtoken_tab_prefix_iff (rest : Bytes) : vtoken ws ++ [9] <+: vtoken vs ++ 9 :: rest ↔ ws = vs := by
  constructor
  · intro h
    obtain ⟨us, rfl⟩ := (vtoken_prefix_iff hws hvs rest).mp ((prefix_append _ _).trans h)
    cases us with
    | nil => exact (append_nil ws).symm
    | cons u us =>
      obtain ⟨t, ht⟩ := h
      rw [vtoken_append, append_assoc, append_assoc] at ht
      have htab := append_cancel_left ht
      rw [vtoken_cons, append_assoc] at htab
      exact absurd htab.symm (hvs u (mem_append_right _ mem_cons_self)).head_ne_tab
  · rintro rfl
    exact ⟨rest, by rw [append_assoc]; rfl⟩

end GeminiTS.Text
