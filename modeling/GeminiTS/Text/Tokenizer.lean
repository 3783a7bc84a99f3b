import GeminiTS.Lib.Bytes

/-!
# Tokenizer — the words of a log line

`SimpleTokenizer.Next` and `Tokenizer` of the text index (`engine/index/clv/tokenizer.go`, `analyzer.go`): separators
are passed over, a word is a run of other ASCII bytes or one character of several bytes, whose number is told by the
first byte.

* `tokenizer_ends_iff` — the scan ends, in pieces of the input, exactly for these inputs.
-/

namespace GeminiTS.Text

open Lib List

/-! ### The loops -/

/-- `DefaultSplitGram`. -/
def splitGram : List UInt8 :=
  [0x2c, 0x20, 0x27, 0x22, 0x3b, 0x3d, 0x28, 0x29, 0x5b, 0x5d, 0x7b, 0x7d, 0x3f, 0x40, 0x26, 0x3c, 0x3e, 0x2f, 0x3a,
    0x0a, 0x09, 0x0d]

def isSplit (b : UInt8) : Bool := b &&& 0x80 = 0 && splitGram.contains b

def isChar (b : UInt8) : Bool := b &&& 0x80 = 0 && !splitGram.contains b

/-- Why a loop has no result. -/
inductive Stuck
  | outOfRounds
  | outOfRange
  deriving DecidableEq

/-- The loop over a run of ASCII bytes. -/
def charEnd (data : Bytes) (stop : ℕ) : ℕ := stop + ((data.drop stop).takeWhile isChar).length

/-- The loop of `Next`. A byte from `0xf8` on has no branch: the loop goes round without a change. -/
def scan (data : Bytes) : (rounds start stop : ℕ) → Except Stuck (ℕ × ℕ)
  | 0, _, _ => .error .outOfRounds
  | rounds + 1, start, stop =>
    if stop < data.length then
      match data[stop]? with
      | none => .error .outOfRange
      | some c =>
        if isSplit c then scan data rounds (start + 1) (stop + 1)
        else if isChar c then .ok (start, charEnd data stop)
        else if c < 0xe0 then .ok (start, stop + 2)
        else if c < 0xf0 then .ok (start, stop + 3)
        else if c < 0xf8 then .ok (start, stop + 4)
        else scan data rounds start stop
    else .ok (start, stop)

/-- The bytes `[start, stop)`. -/
def slice (data : Bytes) (start stop : ℕ) : Except Stuck Bytes :=
  if start ≤ stop ∧ stop ≤ data.length then .ok ((data.take stop).drop start) else .error .outOfRange

/-- `Next`: a token and the data behind it. -/
def next (rounds : ℕ) (data : Bytes) : Except Stuck (Option (Bytes × Bytes)) := do
  if data.length = 0 then return none
  let (start, stop) ← scan data rounds 0 0
  if start = stop ∨ stop > data.length then return none
  let token ← slice data start stop
  let rest ← slice data stop data.length
  return some (token, rest)

/-- `Tokenizer`: the tokens until `Next` fails. -/
def tokenizer (rounds : ℕ) : (calls : ℕ) → Bytes → Except Stuck (List Bytes)
  | 0, _ => .error .outOfRounds
  | calls + 1, data => do
    match ← next rounds data with
    | none => return []
    | some (token, rest) => return token :: (← tokenizer rounds calls rest)

/-! ### Readable inputs -/

/-- No byte from `0xf8` on stands where a word or a character starts; `skip` bytes belong to the character before. -/
def readableFrom : (skip : ℕ) → Bytes → Bool
  | _, [] => true
  | skip + 1, _ :: bs => readableFrom skip bs
  | 0, b :: bs =>
    if b < 0x80 then readableFrom 0 bs
    else if b < 0xe0 then readableFrom 1 bs
    else if b < 0xf0 then readableFrom 2 bs
    else if b < 0xf8 then readableFrom 3 bs
    else false

abbrev Readable (data : Bytes) : Prop := readableFrom 0 data = true

theorem readableFrom_drop (skip : ℕ) (bs : Bytes) : readableFrom skip bs = readableFrom 0 (bs.drop skip) := by
  induction skip generalizing bs with
  | zero => rfl
  | succ skip ih =>
    cases bs with
    | nil => rfl
    | cons b bs => exact ih bs

theorem drop_length_takeWhile (p : UInt8 → Bool) (bs : Bytes) : bs.drop (bs.takeWhile p).length = bs.dropWhile p := by
  calc bs.drop (bs.takeWhile p).length
      = (bs.takeWhile p ++ bs.dropWhile p).drop (bs.takeWhile p).length := by rw [takeWhile_append_dropWhile]
    _ = bs.dropWhile p := drop_left

theorem ascii_iff (b : UInt8) : b &&& 0x80 = 0 ↔ b < 0x80 := by
  have h : ∀ n : Fin 256, UInt8.ofNat n &&& 0x80 = 0 ↔ UInt8.ofNat n < 0x80 := by decide +kernel
  have hb := h ⟨b.toNat, b.toNat_lt⟩
  rwa [UInt8.ofNat_toNat] at hb

variable {b : UInt8} (data bs : Bytes) (rounds : ℕ)

theorem isSplit_ascii (h : isSplit b = true) : b < 0x80 := by
  simp only [isSplit, Bool.and_eq_true, decide_eq_true_eq] at h
  exact (ascii_iff b).mp h.1

theorem isChar_ascii (h : isChar b = true) : b < 0x80 := by
  simp only [isChar, Bool.and_eq_true, decide_eq_true_eq] at h
  exact (ascii_iff b).mp h.1

theorem not_ascii (hs : isSplit b = false) (hc : isChar b = false) : ¬ b < 0x80 := by
  intro h
  have h0 := (ascii_iff b).mpr h
  simp [isSplit, isChar, h0] at hs hc
  exact hs hc

theorem readable_ascii {bs : Bytes} (h : b < 0x80) : readableFrom 0 (b :: bs) = readableFrom 0 bs := by
  rw [readableFrom, if_pos h]

theorem readable_dropWhile_isChar : readableFrom 0 (bs.dropWhile isChar) = readableFrom 0 bs := by
  induction bs with
  | nil => rfl
  | cons b bs ih =>
    rw [dropWhile_cons]
    split_ifs with h
    · rw [ih, readable_ascii (isChar_ascii h)]
    · rfl

/-! ### One call -/

/-- What the loop of `Next` finds in the data from `stop` on. -/
inductive Scanned (data : Bytes) (rounds stop : ℕ) : Except Stuck (ℕ × ℕ) → Prop
  | stuck (h : rounds ≤ (data.drop stop).length ∨ ¬ Readable (data.drop stop)) :
    Scanned data rounds stop (.error .outOfRounds)
  | ended (h : Readable (data.drop stop)) : Scanned data rounds stop (.ok (data.length, data.length))
  | piece (start fin : ℕ) (hs : stop ≤ start) (hf : start < fin)
    (hr : Readable (data.drop fin) ↔ Readable (data.drop stop)) : Scanned data rounds stop (.ok (start, fin))

theorem scan_scanned (stop : ℕ) (hstop : stop ≤ data.length) :
    Scanned data rounds stop (scan data rounds stop stop) := by
  induction rounds generalizing stop with
  | zero => exact .stuck (.inl (Nat.zero_le _))
  | succ rounds ih =>
    rw [scan]
    by_cases hlt : stop < data.length
    · rw [getElem?_eq_getElem hlt]
      obtain ⟨c, hc⟩ : ∃ c, data[stop] = c := ⟨_, rfl⟩
      have hdrop : data.drop stop = c :: data.drop (stop + 1) := by rw [← hc]; exact drop_eq_getElem_cons hlt
      have hskip (k : ℕ) : readableFrom k (data.drop (stop + 1)) = readableFrom 0 (data.drop (stop + 1 + k)) := by
        rw [readableFrom_drop, drop_drop]
      have hnot (hs : ¬ isSplit c = true) (hch : ¬ isChar c = true) : ¬ c < 0x80 :=
        not_ascii (Bool.eq_false_iff.mpr hs) (Bool.eq_false_iff.mpr hch)
      simp only [hc]
      split_ifs with hsplit hchar h2 h3 h4
      · -- A separator: both ends move on.
        have hread : Readable (data.drop stop) ↔ Readable (data.drop (stop + 1)) := by
          rw [Readable, hdrop, readable_ascii (isSplit_ascii hsplit)]
        generalize hr : scan data rounds (stop + 1) (stop + 1) = r
        cases hr ▸ ih (stop + 1) hlt with
        | stuck h =>
          refine .stuck (h.imp (fun h => ?_) fun h => mt hread.mp h)
          rw [hdrop, length_cons]
          omega
        | ended h => exact .ended (hread.mpr h)
        | piece start fin hs hf hfin => exact .piece start fin (by omega) hf (hfin.trans hread.symm)
      · -- A run of ASCII bytes, with one byte at least.
        have hrest : data.drop (charEnd data stop) = (data.drop stop).dropWhile isChar := by
          rw [charEnd, ← drop_drop, drop_length_takeWhile]
        refine .piece stop _ (le_refl stop) ?_ (by rw [Readable, hrest, readable_dropWhile_isChar])
        rw [charEnd, hdrop, takeWhile_cons_of_pos hchar, length_cons]
        omega
      · refine .piece stop _ (le_refl stop) (by omega) ?_
        rw [Readable, Readable, hdrop, readableFrom, if_neg (hnot hsplit hchar), if_pos h2, hskip]
      · refine .piece stop _ (le_refl stop) (by omega) ?_
        rw [Readable, Readable, hdrop, readableFrom, if_neg (hnot hsplit hchar), if_neg h2, if_pos h3, hskip]
      · refine .piece stop _ (le_refl stop) (by omega) ?_
        rw [Readable, Readable, hdrop, readableFrom, if_neg (hnot hsplit hchar), if_neg h2, if_neg h3, if_pos h4, hskip]
      · -- No branch: nothing changes.
        have hread : ¬ Readable (data.drop stop) := by
          rw [Readable, hdrop, readableFrom, if_neg (hnot hsplit hchar), if_neg h2, if_neg h3, if_neg h4]
          exact Bool.false_ne_true
        generalize hr : scan data rounds stop stop = r
        cases hr ▸ ih stop hstop with
        | stuck h => exact .stuck (.inr hread)
        | ended h => exact .ended h
        | piece start fin hs hf hfin => exact .piece start fin hs hf hfin
    · rw [if_neg hlt]
      obtain rfl : stop = data.length := by omega
      refine .ended ?_
      rw [drop_length]
      rfl

/-- What `Next` finds. -/
inductive Nexted (rounds : ℕ) (data : Bytes) : Except Stuck (Option (Bytes × Bytes)) → Prop
  | stuck (h : rounds ≤ data.length ∨ ¬ Readable data) : Nexted rounds data (.error .outOfRounds)
  | ended (h : Readable data) : Nexted rounds data (.ok none)
  | token (gap token rest : Bytes) (hd : data = gap ++ token ++ rest) (ht : token ≠ [])
    (hr : Readable rest ↔ Readable data) : Nexted rounds data (.ok (some (token, rest)))

theorem next_nexted (data : Bytes) : Nexted rounds data (next rounds data) := by
  unfold next
  by_cases h0 : data.length = 0
  · rw [if_pos h0]
    obtain rfl := length_eq_zero_iff.mp h0
    exact .ended rfl
  · rw [if_neg h0]
    generalize hr : scan data rounds 0 0 = r
    cases hr ▸ scan_scanned data rounds 0 (Nat.zero_le _) with
    | stuck h => exact .stuck h
    | ended h =>
      show Nexted rounds data (if data.length = data.length ∨ _ then _ else _)
      rw [if_pos (.inl rfl)]
      exact .ended h
    | piece start fin hs hf hfin =>
      show Nexted rounds data (if start = fin ∨ fin > data.length then _ else _)
      by_cases hmax : fin > data.length
      · -- A character that is cut off is dropped.
        rw [if_pos (.inr hmax)]
        refine .ended (hfin.mp ?_)
        rw [drop_eq_nil_of_le (by omega)]
        rfl
      · have htake : data = (data.take fin).take start ++ (data.take fin).drop start ++ data.drop fin := by
          rw [take_append_drop, take_append_drop]
        rw [if_neg (by omega), slice, if_pos ⟨by omega, by omega⟩, slice, if_pos ⟨by omega, le_refl _⟩, take_length]
        refine .token _ _ _ htake (fun hnil => ?_) hfin
        have hlen := congrArg length hnil
        rw [length_drop, length_take, length_nil] at hlen
        omega

/-! ### All tokens -/

/-- Non-empty pieces of the data, in order and without overlap. -/
def Pieces : Bytes → List Bytes → Prop
  | _, [] => True
  | data, token :: tokens => token ≠ [] ∧ ∃ gap rest, data = gap ++ token ++ rest ∧ Pieces rest tokens

/-- Tokenizing ends, reads nothing outside the data, and gives pieces of the data. -/
def Ends (data : Bytes) : Prop := ∃ rounds calls tokens, tokenizer rounds calls data = .ok tokens ∧ Pieces data tokens

theorem tokenizer_readable {data : Bytes} (h : Readable data) {rounds calls : ℕ} (hrounds : data.length < rounds)
    (hcalls : data.length < calls) : ∃ tokens, tokenizer rounds calls data = .ok tokens ∧ Pieces data tokens := by
  induction calls generalizing data with
  | zero => exact absurd hcalls (Nat.not_lt_zero _)
  | succ calls ih =>
    rw [tokenizer]
    generalize hr : next rounds data = r
    cases hr ▸ next_nexted rounds data with
    | stuck hstuck => exact absurd h (hstuck.resolve_left (by omega))
    | ended _ => exact ⟨[], rfl, trivial⟩
    | token gap token rest hd ht hread =>
      have hlen : rest.length < data.length := by
        have := length_pos_iff.mpr ht
        rw [hd, length_append, length_append]
        omega
      obtain ⟨tokens, htok, hpieces⟩ := ih (hread.mpr h) (by omega) (by omega)
      refine ⟨token :: tokens, ?_, ht, gap, rest, hd, hpieces⟩
      show (tokenizer rounds calls rest >>= fun ts => pure (token :: ts)) = _
      rw [htok]
      rfl

theorem tokenizer_stuck {data : Bytes} (h : ¬ Readable data) (rounds calls : ℕ) :
    tokenizer rounds calls data = .error .outOfRounds := by
  induction calls generalizing data with
  | zero => rfl
  | succ calls ih =>
    rw [tokenizer]
    generalize hr : next rounds data = r
    cases hr ▸ next_nexted rounds data with
    | stuck _ => rfl
    | ended hread => exact absurd hread h
    | token gap token rest hd ht hread =>
      show (tokenizer rounds calls rest >>= fun ts => pure (token :: ts)) = _
      rw [ih (mt hread.mp h)]
      rfl

/-- **Tokenizing ends exactly for the readable inputs**, and then in non-empty pieces of the input, in order and
without overlap. -/
theorem tokenizer_ends_iff (data : Bytes) : Ends data ↔ Readable data := by
  constructor
  · rintro ⟨rounds, calls, tokens, htok, -⟩
    by_contra hread
    rw [tokenizer_stuck hread] at htok
    cases htok
  · intro h
    obtain ⟨tokens, htok, hpieces⟩ := tokenizer_readable h (Nat.lt_succ_self _) (Nat.lt_succ_self _)
    exact ⟨_, _, tokens, htok, hpieces⟩

/-- The byte `0xff` alone: the loop goes round for ever. -/
theorem tokenizer_never_ends : ¬ Ends [0xff] := by
  rintro ⟨rounds, calls, tokens, htok, -⟩
  have hread : ¬ Readable [0xff] := by decide
  rw [tokenizer_stuck hread] at htok
  cases htok

end GeminiTS.Text
