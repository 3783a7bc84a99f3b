import Mathlib

/-!
# Patch — reading and overwriting parts of a list

* `patch fill b off dat` — `b` with `dat` written from `off` on; a gap before `off` is filled.
-/

namespace GeminiTS.Lib

open List

variable {α : Type*} (fill : α)

/-- Write `dat` from `off` on. -/
def patch (b : List α) (off : ℕ) (dat : List α) : List α :=
  b.take off ++ replicate (off - b.length) fill ++ dat ++ b.drop (off + dat.length)

/-- The `n` elements from `off` on. -/
def slice (b : List α) (off n : ℕ) : List α := (b.drop off).take n

theorem getElem?_slice (b : List α) (off n i : ℕ) : (slice b off n)[i]? = if i < n then b[off + i]? else none := by
  rw [slice, getElem?_take, getElem?_drop]

variable {b dat : List α} {off n : ℕ}

theorem slice_congr {b' : List α} (h : ∀ i, off ≤ i → i < off + n → b[i]? = b'[i]?) :
    slice b off n = slice b' off n := by
  ext1 i
  rw [getElem?_slice, getElem?_slice]
  split_ifs with hi
  · exact h (off + i) (by omega) (by omega)
  · rfl

theorem slice_append_left (h : off + n ≤ b.length) (c : List α) : slice (b ++ c) off n = slice b off n :=
  slice_congr fun i _ hi => getElem?_append_left (by omega)

variable {off' k i m : ℕ}

theorem slice_slice (h : k + m ≤ n) : slice (slice b off n) k m = slice b (off + k) m := by
  ext1 i
  rw [getElem?_slice, getElem?_slice, getElem?_slice]
  split_ifs with hi hk
  · rw [Nat.add_assoc]
  · omega
  · rfl

theorem slice_replicate (a : α) (h : off + m ≤ n) : slice (replicate n a) off m = replicate m a := by
  rw [slice, drop_replicate, take_replicate, min_eq_left (by omega)]

@[simp] theorem slice_zero_length (b : List α) : slice b 0 b.length = b := take_length

theorem slice_append_right (b c : List α) (k n : ℕ) : slice (b ++ c) (b.length + k) n = slice c k n := by
  rw [slice, slice, drop_append, drop_eq_nil_of_le (by omega), nil_append, Nat.add_sub_cancel_left]

/-! ### After a patch -/

theorem length_patch (b : List α) (off : ℕ) (dat : List α) :
    (patch fill b off dat).length = max b.length (off + dat.length) := by
  simp only [patch, length_append, length_take, length_replicate, length_drop]
  omega

theorem getElem?_patch_before (h : i < off) (hi : i < b.length) (dat : List α) :
    (patch fill b off dat)[i]? = b[i]? := by
  rw [patch, append_assoc, append_assoc, getElem?_append_left (by rw [length_take]; omega), getElem?_take_of_lt h]

theorem getElem?_patch_within (h : off ≤ i) (hi : i < off + dat.length) :
    (patch fill b off dat)[i]? = dat[i - off]? := by
  have hlen : (b.take off ++ replicate (off - b.length) fill).length = off := by
    rw [length_append, length_take, length_replicate]
    omega
  rw [patch, append_assoc, getElem?_append_right (by omega), hlen, getElem?_append_left (by omega)]

theorem getElem?_patch_after (h : off + dat.length ≤ i) : (patch fill b off dat)[i]? = b[i]? := by
  have hlen : (b.take off ++ replicate (off - b.length) fill ++ dat).length = off + dat.length := by
    rw [length_append, length_append, length_take, length_replicate]
    omega
  rw [patch, getElem?_append_right (by omega), hlen, getElem?_drop]
  congr 1
  omega

theorem slice_patch_before (h : off' + n ≤ off) (hb : off' + n ≤ b.length) (dat : List α) :
    slice (patch fill b off dat) off' n = slice b off' n :=
  slice_congr fun i _ hi => getElem?_patch_before fill (by omega) (by omega) dat

theorem slice_patch_after (h : off + dat.length ≤ off') (n : ℕ) :
    slice (patch fill b off dat) off' n = slice b off' n :=
  slice_congr fun i hi _ => getElem?_patch_after fill (by omega)

theorem slice_patch_within (h : k + n ≤ dat.length) : slice (patch fill b off dat) (off + k) n = slice dat k n := by
  ext1 i
  rw [getElem?_slice, getElem?_slice]
  split_ifs with hi
  · rw [getElem?_patch_within fill (by omega) (by omega)]
    congr 1
    omega
  · rfl

theorem slice_patch_self (b : List α) (off : ℕ) (dat : List α) : slice (patch fill b off dat) off dat.length = dat := by
  have h : slice (patch fill b off dat) (off + 0) dat.length = slice dat 0 dat.length :=
    slice_patch_within fill (by omega)
  rwa [Nat.add_zero, slice_zero_length] at h

/-! ### A copy that is cut -/

theorem getElem?_eq_of_cut {l : List α} (h : b <+: l) (hi : i < b.length) : b[i]? = l[i]? := by
  obtain ⟨d, rfl⟩ := h
  rw [getElem?_append_left hi]

theorem slice_eq_of_cut {c : List α} (h : b <+: c) {off n : ℕ} (hb : off + n ≤ b.length) :
    slice b off n = slice c off n :=
  slice_congr fun i _ hi => getElem?_eq_of_cut h (by omega)

/-- Writing to both copies, not behind the end of the shorter one. -/
theorem patch_cut {c : List α} (h : b <+: c) (hoff : off ≤ b.length) (dat : List α) :
    patch fill b off dat <+: patch fill c off dat := by
  have hle := h.length_le
  refine prefix_iff_getElem?.mpr fun i hi => ?_
  rw [← getElem?_eq_getElem hi]
  rw [length_patch] at hi
  rcases lt_or_ge i off with hlt | hge
  · rw [getElem?_patch_before fill hlt (by omega), getElem?_patch_before fill hlt (by omega),
      getElem?_eq_of_cut h (by omega)]
  · rcases lt_or_ge i (off + dat.length) with hlt' | hge'
    · rw [getElem?_patch_within fill hge hlt', getElem?_patch_within fill hge hlt']
    · rw [getElem?_patch_after fill hge', getElem?_patch_after fill hge', getElem?_eq_of_cut h (by omega)]

end GeminiTS.Lib
