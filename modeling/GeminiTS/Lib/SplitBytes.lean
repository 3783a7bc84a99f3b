import GeminiTS.Lib.Bytes

/-!
# SplitBytes — a text cut at a byte

* `indexByte` — the place of the first such byte.
-/

namespace GeminiTS.Lib

open List

variable {s : Bytes} {ch : UInt8} {n : ℕ}

/-- The place of the first `ch`. -/
def indexByte (s : Bytes) (ch : UInt8) : Option ℕ := s.findIdx? (· == ch)

theorem indexByte_lt (h : indexByte s ch = some n) : n < s.length := by
  obtain ⟨hn, -⟩ := findIdx?_eq_some_iff_getElem.mp h
  exact hn

theorem indexByte_cons (b : UInt8) :
    indexByte (b :: s) ch = if b = ch then some 0 else (indexByte s ch).map (· + 1) := by
  rw [indexByte, findIdx?_cons]
  by_cases h : b = ch
  · rw [if_pos h, if_pos (by simpa using h)]
  · rw [if_neg h, if_neg (by simpa using h)]
    rfl

/-- The parts between the bytes `sep`, also the empty ones. -/
def splitAll (sep : UInt8) : Bytes → List Bytes
  | [] => [[]]
  | b :: s => if b = sep then [] :: splitAll sep s
    else match splitAll sep s with
      | [] => [[b]]
      | part :: parts => (b :: part) :: parts

theorem splitAll_ne_nil (sep : UInt8) (s : Bytes) : splitAll sep s ≠ [] := by
  cases s with
  | nil => exact cons_ne_nil _ _
  | cons b s =>
    rw [splitAll]
    split_ifs
    · exact cons_ne_nil _ _
    · split <;> exact cons_ne_nil _ _

theorem splitAll_of_none (h : indexByte s ch = none) : splitAll ch s = [s] := by
  induction s with
  | nil => rfl
  | cons b s ih =>
    rw [indexByte_cons] at h
    split_ifs at h with hb
    rw [splitAll, if_neg hb, ih (Option.map_eq_none_iff.mp h)]

/-- **The first part ends before the first such byte.** -/
theorem splitAll_of_some (h : indexByte s ch = some n) : splitAll ch s = s.take n :: splitAll ch (s.drop (n + 1)) := by
  induction s generalizing n with
  | nil => cases h
  | cons b s ih =>
    rw [indexByte_cons] at h
    split_ifs at h with hb
    · cases h
      rw [splitAll, if_pos hb, take_zero, drop_succ_cons, drop_zero]
    · obtain ⟨m, hm, rfl⟩ := Option.map_eq_some_iff.mp h
      rw [splitAll, if_neg hb, ih hm, take_succ_cons, drop_succ_cons]

theorem splitAll_eq_nil_iff : splitAll ch s = [[]] ↔ s = [] := by
  cases s with
  | nil => exact ⟨fun _ => rfl, fun _ => rfl⟩
  | cons b s =>
    refine ⟨fun h => ?_, fun h => by cases h⟩
    rw [splitAll] at h
    split_ifs at h
    · exact absurd (cons.inj h).2 (splitAll_ne_nil ch s)
    · split at h <;> cases h

/-- The bytes of a part are bytes of the text, without the cutting one. -/
theorem mem_of_mem_splitAll {part : Bytes} (hp : part ∈ splitAll ch s) {b : UInt8} (hb : b ∈ part) :
    b ∈ s ∧ b ≠ ch := by
  induction s generalizing part with
  | nil =>
    rw [mem_singleton.mp hp] at hb
    exact absurd hb not_mem_nil
  | cons c s ih =>
    rw [splitAll] at hp
    split_ifs at hp with hc
    · rcases mem_cons.mp hp with rfl | hp
      · exact absurd hb not_mem_nil
      · exact (ih hp hb).imp_left (mem_cons_of_mem _)
    · cases hs : splitAll ch s with
      | nil => exact absurd hs (splitAll_ne_nil ch s)
      | cons first rest =>
        rw [hs] at hp ih
        rcases mem_cons.mp hp with rfl | hp
        · rcases mem_cons.mp hb with rfl | hb
          · exact ⟨mem_cons_self, hc⟩
          · exact (ih mem_cons_self hb).imp_left (mem_cons_of_mem _)
        · exact (ih (mem_cons_of_mem _ hp) hb).imp_left (mem_cons_of_mem _)

theorem indexByte_of_mem_splitAll {part : Bytes} (hp : part ∈ splitAll ch s) : indexByte part ch = none :=
  findIdx?_eq_none_iff.mpr fun _ hb => beq_false_of_ne (mem_of_mem_splitAll hp hb).2

/-- The last part; a cutting byte at the end does not begin a new one. -/
def lastPart (sep : UInt8) (s : Bytes) : Bytes :=
  let parts := splitAll sep s
  (if parts.getLast? = some [] then parts.dropLast else parts).getLastD []

theorem lastPart_mem (sep : UInt8) (s : Bytes) : lastPart sep s ∈ splitAll sep s := by
  rw [lastPart]
  by_cases hlast : (splitAll sep s).getLast? = some []
  · rw [if_pos hlast]
    have hmem : (splitAll sep s).dropLast.getLastD [] ∈ [] :: (splitAll sep s).dropLast := getLastD_mem_cons
    rcases mem_cons.mp hmem with h | h
    · rw [h]
      exact mem_of_getLast? hlast
    · exact (dropLast_sublist _).subset h
  · rw [if_neg hlast, getLastD_eq_getLast?, getLast?_eq_some_getLast (splitAll_ne_nil sep s)]
    exact getLast_mem _

theorem lastPart_of_none (h : indexByte s ch = none) : lastPart ch s = s := by
  rw [lastPart, splitAll_of_none h]
  by_cases hs : s = []
  · rw [hs]
    rfl
  · rw [getLast?_singleton, if_neg (by simpa using hs)]
    rfl

theorem lastPart_of_some (h : indexByte s ch = some n) :
    lastPart ch s = if s.drop (n + 1) = [] then s.take n else lastPart ch (s.drop (n + 1)) := by
  have hne := splitAll_ne_nil ch (s.drop (n + 1))
  rw [lastPart, lastPart, splitAll_of_some h, getLast?_cons_of_ne_nil hne]
  by_cases hrest : s.drop (n + 1) = []
  · rw [if_pos hrest, hrest]
    rfl
  · rw [if_neg hrest]
    have hparts : splitAll ch (s.drop (n + 1)) ≠ [[]] := mt splitAll_eq_nil_iff.mp hrest
    generalize splitAll ch (s.drop (n + 1)) = parts at hne hparts
    by_cases hlast : parts.getLast? = some []
    · have hdrop : parts.dropLast ≠ [] := by
        intro hnil
        have hall := dropLast_concat_getLast hne
        rw [getLast?_eq_some_getLast hne, Option.some.injEq] at hlast
        rw [hnil, hlast] at hall
        exact hparts hall.symm
      rw [if_pos hlast, if_pos hlast, dropLast_cons_of_ne_nil hne, getLastD_eq_getLast?,
        getLastD_eq_getLast?, getLast?_cons_of_ne_nil hdrop]
    · rw [if_neg hlast, if_neg hlast, getLastD_eq_getLast?, getLastD_eq_getLast?, getLast?_cons_of_ne_nil hne]

end GeminiTS.Lib
