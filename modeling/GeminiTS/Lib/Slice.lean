import Mathlib

/-!
# Slice — elements in use and storage behind them

* `upTo` — the first `n` elements of the storage, in use or not; `append` — more elements, over the storage.
-/

namespace GeminiTS.Lib

open List

variable {α : Type}

/-- The elements in use, and what the storage holds behind them. Storage that `append` has to add is as large as
what is added. -/
structure Slice (α : Type) where
  items : List α
  spare : List α
  deriving DecidableEq

namespace Slice

def cap (s : Slice α) : ℕ := s.items.length + s.spare.length

/-- `s[:n]`, for `n` within the capacity. -/
def upTo (s : Slice α) (n : ℕ) : Slice α := ⟨(s.items ++ s.spare).take n, (s.items ++ s.spare).drop n⟩

def append (s : Slice α) (xs : List α) : Slice α := ⟨s.items ++ xs, s.spare.drop xs.length⟩

/-- The elements in use behind the first `start` are replaced. -/
def refill (s : Slice α) (start : ℕ) (xs : List α) : Slice α := ⟨s.items.take start ++ xs, s.spare⟩

/-- `n` more elements, as they are in the storage; zeros where it ends. -/
def room (zero : α) (s : Slice α) (n : ℕ) : Slice α :=
  let grown := if s.cap < s.items.length + n then
    (s.upTo s.cap).append (replicate (s.items.length + n - s.cap) zero) else s
  grown.upTo (s.items.length + n)

/-- The elements a slice gets. -/
def olds (zero : α) (s : Slice α) (n : ℕ) : List α := s.spare.take n ++ List.replicate (n - s.spare.length) zero

variable (zero : α) (s : Slice α) (n : ℕ)

@[simp] theorem length_olds : (s.olds zero n).length = n := by
  rw [olds, length_append, length_take, length_replicate]
  omega

theorem room_eq : s.room zero n = ⟨s.items ++ s.olds zero n, s.spare.drop n⟩ := by
  rw [room, olds]
  by_cases h : s.cap < s.items.length + n
  · -- The storage is used up and ends with zeros.
    have hn : s.spare.length < n := by
      rw [cap] at h
      omega
    have hzeros : s.items.length + n - s.cap = n - s.spare.length := by
      rw [cap]
      omega
    have hcap : s.cap = (s.items ++ s.spare).length := length_append.symm
    rw [if_pos h, hzeros, hcap]
    simp only [upTo, append, take_length, drop_length, drop_nil, append_nil]
    have htotal : (s.items ++ s.spare ++ replicate (n - s.spare.length) zero).length = s.items.length + n := by
      simp only [length_append, length_replicate]
      omega
    rw [take_of_length_le (Nat.le_of_eq htotal), drop_of_length_le (Nat.le_of_eq htotal),
      take_of_length_le (Nat.le_of_lt hn), drop_of_length_le (Nat.le_of_lt hn), append_assoc]
  · have hn : n ≤ s.spare.length := by
      rw [cap] at h
      omega
    rw [if_neg h, upTo, take_length_add_append, drop_length_add_append, Nat.sub_eq_zero_of_le hn,
      replicate_zero, append_nil]

/-- The new elements of a slice with room are the old ones of the storage. -/
theorem drop_room : (s.room zero n).items.drop s.items.length = s.olds zero n := by
  rw [room_eq, drop_left]

theorem refill_room (xs : List α) : (s.room zero n).refill s.items.length xs = ⟨s.items ++ xs, s.spare.drop n⟩ := by
  rw [room_eq, refill, take_left]

end Slice

end GeminiTS.Lib
