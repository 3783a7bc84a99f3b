import Mathlib

/-!
# Float64 — integers as 64-bit floats

A float has 53 significant bits. An integer becomes the nearest float, of two equally near ones the one whose last bit
is zero.

* `toFloat n` — the float of a number, which is a number again.
-/

namespace GeminiTS.Lib

/-- Divide by a power of two, to the nearest, of two the even one. -/
def divNearest (n s : ℕ) : ℕ :=
  let q := n / 2 ^ s
  let rest := n % 2 ^ s
  if 2 * rest < 2 ^ s then q else if 2 ^ s < 2 * rest then q + 1 else if q % 2 = 0 then q else q + 1

/-- The bits behind the first 53 ones. -/
def lostBits (n : ℕ) : ℕ := Nat.log 2 n + 1 - 53

def natToFloat (n : ℕ) : ℕ := divNearest n (lostBits n) * 2 ^ lostBits n

def toFloat (n : ℤ) : ℤ := if n < 0 then -(natToFloat n.natAbs) else natToFloat n.natAbs

end GeminiTS.Lib
