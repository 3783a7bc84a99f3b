import GeminiTS.Lib.Search
import GeminiTS.Record.Basic

/-!
# TimeSearch — finding the rows of a time range

The searches of `lib/record/utils.go`: four functions share one loop and differ in the direction of
the list and in what they answer when the target is not met.
-/

namespace GeminiTS

open Lib List

/-- On which side of `t` a time lies, for an ascending or a descending list. -/
def timeCmp (ascending : Bool) (t x : ℤ) : Ordering :=
  if ascending then compare x t else compare t x

/-- The common loop of the four `GetTimeRange…Index` functions. -/
def timeSearch (ascending : Bool) (times : List ℤ) (startPos : ℕ) (t : ℤ) : ℕ × Bool :=
  bsearch (timeCmp ascending t) times (times.length + 1) startPos times.length

def getTimeRangeStartIndex (times : List ℤ) (startPos : ℕ) (startTime : ℤ) : ℕ :=
  (timeSearch true times startPos startTime).1

def getTimeRangeStartIndexDescend (times : List ℤ) (startPos : ℕ) (startTime : ℤ) : ℕ :=
  (timeSearch false times startPos startTime).1

/-- The answer of a search for the last time not past the target; `-1` if there is none. -/
def endIndex : ℕ × Bool → ℤ
  | (i, true) => i
  | (i, false) => i - 1

def getTimeRangeEndIndex (times : List ℤ) (startPos : ℕ) (endTime : ℤ) : ℤ :=
  endIndex (timeSearch true times startPos endTime)

def getTimeRangeEndIndexDescend (times : List ℤ) (startPos : ℕ) (endTime : ℤ) : ℤ :=
  endIndex (timeSearch false times startPos endTime)

section Search

variable {ascending : Bool} {t x : ℤ} {times : List ℤ}

theorem timeCmp_eq_lt : timeCmp ascending t x = .lt ↔ before ascending x t := by
  cases ascending <;> simp [timeCmp, compare_lt_iff_lt]

theorem timeCmp_eq_gt : timeCmp ascending t x = .gt ↔ before ascending t x := by
  cases ascending <;> simp [timeCmp, compare_gt_iff_gt]

theorem timeCmp_eq_eq : timeCmp ascending t x = .eq ↔ x = t := by
  cases ascending <;> simp [timeCmp]
  exact eq_comm

variable (h : times.Pairwise (before ascending))

include h

theorem inOrder_timeCmp (t : ℤ) : InOrder (timeCmp ascending t) times := by
  refine h.imp fun {x y} hxy hy => ?_
  rw [timeCmp_eq_lt]
  rw [Ne, timeCmp_eq_gt] at hy
  by_contra hxt
  exact IsOrderConnected.neg_trans hxt hy hxy

theorem timeSearch_located {startPos : ℕ} (hs : startPos ≤ times.length) (t : ℤ) :
    Located (timeCmp ascending t) times startPos (timeSearch ascending times startPos t).1 ∧
      ((timeSearch ascending times startPos t).2 = true ↔
        times[(timeSearch ascending times startPos t).1]? = some t) := by
  have hb := bsearch_spec (inOrder_timeCmp h t) (times.length + 1) startPos times.length
    (by omega) le_rfl hs le_rfl (fun j x h1 h2 _ => absurd h2 (by omega)) fun j x hj hx => by
      rw [getElem?_eq_none hj] at hx
      cases hx
  refine ⟨hb.1, hb.2.trans ?_⟩
  constructor
  · rintro ⟨x, hx, hc⟩
    obtain rfl := timeCmp_eq_eq.mp hc
    exact hx
  · intro ht
    exact ⟨t, ht, timeCmp_eq_eq.mpr rfl⟩

/-- The range up to the end index holds the times not past the target. -/
theorem endIndex_located {startPos : ℕ} (hs : startPos ≤ times.length) (t : ℤ) {i : ℕ}
    (hi : i = (endIndex (timeSearch ascending times startPos t) + 1).toNat) :
    startPos ≤ i ∧ i ≤ times.length ∧ (∀ j x, startPos ≤ j → j < i → times[j]? = some x → ¬ before ascending t x) ∧
      ∀ j x, i ≤ j → times[j]? = some x → before ascending t x := by
  obtain ⟨hl, hf⟩ := timeSearch_located h hs t
  generalize timeSearch ascending times startPos t = res at hl hf hi
  obtain ⟨k, found⟩ := res
  simp only at hl hf
  have hbefore : ∀ j x, startPos ≤ j → j < k → times[j]? = some x → ¬ before ascending t x :=
    fun j x hj hjk hx hbx => asymm_of _ hbx (timeCmp_eq_lt.mp (hl.lt_of_lt j x hj hjk hx))
  have hpast : ∀ j x, k < j → times[j]? = some x → before ascending t x := by
    intro j x hj hx
    by_contra hnot
    have hk := getElem?_eq_getElem (hj.trans (List.getElem?_eq_some_iff.mp hx).1)
    exact hl.ne_lt_of_le k _ le_rfl hk ((inOrder_timeCmp h t).lt_of_lt hj hk hx (mt timeCmp_eq_gt.mp hnot))
  cases found with
  | true =>
    have hkt := hf.mp rfl
    have hklen := (List.getElem?_eq_some_iff.mp hkt).1
    have hik : i = k + 1 := by rw [hi]; simp only [endIndex]; omega
    refine ⟨by have := hl.start_le; omega, by omega, fun j x hj hjk hx => ?_, fun j x hj => hpast j x (by omega)⟩
    rcases Nat.lt_or_eq_of_le (show j ≤ k by omega) with hjk | rfl
    · exact hbefore j x hj hjk hx
    · rw [← Option.some.inj (hkt.symm.trans hx)]
      exact irrefl_of (before ascending) t
  | false =>
    have hik : i = k := by rw [hi]; simp only [endIndex]; omega
    subst hik
    refine ⟨hl.start_le, hl.le_length, hbefore, fun j x hj hx => ?_⟩
    rcases Nat.lt_or_eq_of_le hj with hj | rfl
    · exact hpast j x hj hx
    · refine (trichotomous_of (before ascending) t x).resolve_right ?_
      rintro (rfl | hb)
      · exact absurd (hf.mpr hx) (by simp)
      · exact hl.ne_lt_of_le i x le_rfl hx (timeCmp_eq_lt.mpr hb)

end Search

end GeminiTS
