import Mathlib

/-!
# Bytes — numbers written as bytes and with hexadecimal digits

* `beBytes w n` — the lowest `w` bytes of `n`, highest first; `beNat` — the number of a list of bytes.
* `padHex w n` — the digits of `n`, lower case, with zeros in front up to `w` digits.
-/

namespace GeminiTS.Lib

open List

abbrev Bytes := List UInt8

instance instLawfulBEqBytes : LawfulBEq Bytes := inferInstance

/-- The lowest `w` bytes of a number, highest first. -/
def beBytes : ℕ → ℕ → Bytes
  | 0, _ => []
  | w + 1, n => beBytes w (n / 256) ++ [UInt8.ofNat n]

def beNat (bs : Bytes) : ℕ := bs.foldl (fun n b => n * 256 + b.toNat) 0

variable (bs : Bytes) (w n : ℕ)

@[simp] theorem length_beBytes : (beBytes w n).length = w := by
  induction w generalizing n with
  | zero => rfl
  | succ w ih => rw [beBytes, length_append, ih, length_singleton]

theorem beNat_concat (b : UInt8) : beNat (bs ++ [b]) = beNat bs * 256 + b.toNat := by
  rw [beNat, foldl_append]
  rfl

theorem beNat_beBytes_mod : beNat (beBytes w n) = n % 256 ^ w := by
  induction w generalizing n with
  | zero =>
    rw [Nat.pow_zero, Nat.mod_one]
    rfl
  | succ w ih =>
    have hpow : 256 ^ (w + 1) = 256 * 256 ^ w := Nat.pow_succ'
    rw [beBytes, beNat_concat, ih, UInt8.toNat_ofNat', hpow, Nat.mod_mul]
    omega

theorem beNat_beBytes {w n : ℕ} (h : n < 256 ^ w) : beNat (beBytes w n) = n := by
  rw [beNat_beBytes_mod, Nat.mod_eq_of_lt h]

theorem beNat_lt : beNat bs < 256 ^ bs.length := by
  induction bs using reverseRecOn with
  | nil => exact Nat.one_pos
  | append_singleton bs b ih =>
    rw [beNat_concat, length_append, length_singleton, Nat.pow_succ]
    have := b.toNat_lt
    omega

/-- Bytes are ordered as numbers; byte strings then have the lexicographic order of lists. -/
instance instLinearOrderUInt8 : LinearOrder UInt8 where
  le_refl := UInt8.le_refl
  le_trans _ _ _ := UInt8.le_trans
  le_antisymm _ _ := UInt8.le_antisymm
  le_total := UInt8.le_total
  lt_iff_le_not_ge a b := by
    rw [UInt8.not_le]
    exact ⟨fun h => ⟨UInt8.le_of_lt h, h⟩, fun h => h.2⟩
  toDecidableLE := inferInstance

/-! ### Hexadecimal digits -/

/-- The digit of a number below sixteen. -/
def hexDigit (n : ℕ) : UInt8 := UInt8.ofNat (if n < 10 then 48 + n else 87 + n)

/-- The value of a digit of either case. -/
def hexValue (b : UInt8) : Option ℕ :=
  if 48 ≤ b ∧ b ≤ 57 then some (b.toNat - 48)
  else if 97 ≤ b ∧ b ≤ 102 then some (b.toNat - 87)
  else if 65 ≤ b ∧ b ≤ 70 then some (b.toNat - 55)
  else none

/-- A lower-case digit. -/
def isHex (b : UInt8) : Bool := (48 ≤ b && b ≤ 57) || (97 ≤ b && b ≤ 102)

/-- The digits without leading zeros. -/
def hexDigits (n : ℕ) : Bytes :=
  if n < 16 then [hexDigit n] else hexDigits (n / 16) ++ [hexDigit (n % 16)]
termination_by n

def padHex (w n : ℕ) : Bytes := List.replicate (w - (hexDigits n).length) 48 ++ hexDigits n

def parseHexFrom (acc : Option ℕ) (bs : Bytes) : Option ℕ :=
  bs.foldl (fun acc b => acc.bind fun n => (hexValue b).map fun d => n * 16 + d) acc

def parseHex (bs : Bytes) : Option ℕ := parseHexFrom (some 0) bs

/-! ### One digit -/

theorem isHex_hexDigit {n : ℕ} (h : n < 16) : isHex (hexDigit n) = true :=
  (by decide : ∀ m < 16, isHex (hexDigit m) = true) n h

theorem hexValue_hexDigit {n : ℕ} (h : n < 16) : hexValue (hexDigit n) = some n :=
  (by decide : ∀ m < 16, hexValue (hexDigit m) = some m) n h

/-! ### All digits -/

theorem all_isHex_hexDigits : (hexDigits n).all isHex = true := by
  fun_induction hexDigits n with
  | case1 n h => rw [all_cons, isHex_hexDigit h, all_nil, Bool.and_self]
  | case2 n h ih =>
    rw [all_append, ih, all_cons, isHex_hexDigit (Nat.mod_lt n (by decide)), all_nil, Bool.and_self, Bool.and_self]

theorem length_hexDigits_le {n k : ℕ} (hk : 0 < k) (h : n < 16 ^ k) : (hexDigits n).length ≤ k := by
  induction k generalizing n with
  | zero => omega
  | succ k ih =>
    rw [hexDigits]
    split_ifs with hsmall
    · exact Nat.succ_le_succ (Nat.zero_le k)
    · have hlt : n / 16 < 16 ^ k := Nat.div_lt_of_lt_mul (by rwa [← Nat.pow_succ'])
      have hpos : 0 < k := by
        rcases Nat.eq_zero_or_pos k with rfl | hpos
        · rw [Nat.zero_add, Nat.pow_one] at h
          omega
        · exact hpos
      rw [length_append, length_singleton]
      have := ih hpos hlt
      omega

theorem parseHexFrom_append (acc : Option ℕ) (bs bs' : Bytes) :
    parseHexFrom acc (bs ++ bs') = parseHexFrom (parseHexFrom acc bs) bs' := foldl_append

theorem parseHex_hexDigits : parseHex (hexDigits n) = some n := by
  fun_induction hexDigits n with
  | case1 n h =>
    show ((some 0).bind fun m => (hexValue (hexDigit n)).map fun d => m * 16 + d) = some n
    rw [hexValue_hexDigit h]
    simp
  | case2 n h ih =>
    rw [parseHex, parseHexFrom_append, ← parseHex, ih]
    show ((some (n / 16)).bind fun m => (hexValue (hexDigit (n % 16))).map fun d => m * 16 + d) = some n
    rw [hexValue_hexDigit (Nat.mod_lt n (by decide)), Option.bind_some, Option.map_some]
    congr 1
    omega

theorem parseHexFrom_zeros (k : ℕ) : parseHexFrom (some 0) (replicate k 48) = some 0 := by
  induction k with
  | zero => rfl
  | succ k ih =>
    rw [replicate_succ']
    rw [parseHexFrom_append, ih]
    rfl

/-- **What was written is read back.** -/
theorem parseHex_padHex : parseHex (padHex w n) = some n := by
  rw [padHex, parseHex, parseHexFrom_append, parseHexFrom_zeros, ← parseHex, parseHex_hexDigits]

theorem all_isHex_padHex : (padHex w n).all isHex = true := by
  rw [padHex, all_append, all_isHex_hexDigits, Bool.and_true, all_replicate]
  split_ifs <;> rfl

theorem length_padHex_ge : w ≤ (padHex w n).length := by
  rw [padHex, length_append, length_replicate]
  omega

theorem length_padHex_le {w n k : ℕ} (hk : 0 < k) (hwk : w ≤ k) (h : n < 16 ^ k) : (padHex w n).length ≤ k := by
  rw [padHex, length_append, length_replicate]
  have := length_hexDigits_le hk h
  omega

theorem length_padHex {w n : ℕ} (hw : 0 < w) (h : n < 16 ^ w) : (padHex w n).length = w :=
  le_antisymm (length_padHex_le hw (le_refl w) h) (length_padHex_ge w n)

end GeminiTS.Lib
