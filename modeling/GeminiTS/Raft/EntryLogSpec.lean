import GeminiTS.Raft.EntryLog
import GeminiTS.Raft.LogFileSpec

/-!
# EntryLogSpec — what the raft log holds
-/

namespace GeminiTS.Raft

open Lib List
open FileWrap (clear reopen openFile)

/-- The entries in the full files and in the current one. -/
structure Files where
  rotated : List (List Placed)
  last : List Placed

namespace Files

def placed (fl : Files) : List Placed := fl.rotated.flatten ++ fl.last

def entries (fl : Files) : List Entry := fl.placed.map Prod.fst

/-- The number of entries before a full file. -/
def before (fl : Files) (i : ℕ) : ℕ := (fl.rotated.take i).flatten.length

/-- The current file is only empty if there is no other. -/
def Proper (fl : Files) : Prop := fl.rotated ≠ [] → fl.last ≠ []

/-- Where an index is. -/
inductive Located (fl : Files) (raftIndex : ℕ) : Option ℕ × Option ℕ → Prop
  | below (fidx : Option ℕ) (hfidx : fidx = if fl.rotated = [] then none else some 0)
      (h : fl.entries = [] ∨ raftIndex < firstOf fl.entries) : Located fl raftIndex (fidx, none)
  | current (hne : fl.last ≠ []) (hle : firstOf fl.entries + fl.rotated.flatten.length ≤ raftIndex) :
      Located fl raftIndex
        (none, some (min (raftIndex - (firstOf fl.entries + fl.rotated.flatten.length)) fl.last.length))
  | rotated {i : ℕ} {ls : List Placed} (hi : fl.rotated[i]? = some ls)
      (hle : firstOf fl.entries + fl.before i ≤ raftIndex)
      (hlt : raftIndex < firstOf fl.entries + fl.before i + ls.length) :
      Located fl raftIndex (some i, some (raftIndex - (firstOf fl.entries + fl.before i)))

end Files

open Files

/-- The log holds the entries. -/
structure EntryLog.Holds (l : EntryLog) (fl : Files) : Prop where
  files : List.Forall₂ FileWrap.Stores l.files fl.rotated
  current : l.current.Stores fl.last
  nextEntryIdx : l.nextEntryIdx = fl.last.length
  rotated_ne : ∀ ls ∈ fl.rotated, ls ≠ []
  consecutive : Consecutive fl.entries

namespace Files

variable {fl : Files}

theorem Proper.rotated_eq_nil (hp : fl.Proper) (h : fl.last = []) : fl.rotated = [] := by
  by_contra hne
  exact hp hne h

variable {i : ℕ} {ls : List Placed}

theorem placed_split (hi : fl.rotated[i]? = some ls) :
    fl.placed = (fl.rotated.take i).flatten ++ ls ++ ((fl.rotated.drop (i + 1)).flatten ++ fl.last) := by
  obtain ⟨hlt, rfl⟩ := List.getElem?_eq_some_iff.mp hi
  have hsplit : fl.rotated = fl.rotated.take i ++ fl.rotated[i] :: fl.rotated.drop (i + 1) := by
    rw [← drop_eq_getElem_cons hlt, take_append_drop]
  have hflat := congrArg flatten hsplit
  rw [flatten_append, flatten_cons] at hflat
  rw [placed, hflat]
  simp only [append_assoc]

theorem getElem?_placed_rotated {k : ℕ} (hi : fl.rotated[i]? = some ls) (hk : k < ls.length) :
    fl.placed[fl.before i + k]? = ls[k]? := by
  rw [placed_split hi, append_assoc, before, getElem?_append_right (Nat.le_add_right _ _),
    Nat.add_sub_cancel_left, getElem?_append_left hk]

theorem getElem?_placed_last (fl : Files) (k : ℕ) : fl.placed[fl.rotated.flatten.length + k]? = fl.last[k]? := by
  rw [placed, getElem?_append_right (Nat.le_add_right _ _), Nat.add_sub_cancel_left]

theorem before_succ (hi : fl.rotated[i]? = some ls) : fl.before (i + 1) = fl.before i + ls.length := by
  rw [before, before, take_add_one, hi]
  simp

theorem before_length : fl.before fl.rotated.length = fl.rotated.flatten.length := by
  rw [before, take_length]

theorem before_mono {j : ℕ} (h : i ≤ j) : fl.before i ≤ fl.before j := by
  obtain ⟨d, rfl⟩ := Nat.exists_eq_add_of_le h
  rw [before, before, take_add, flatten_append, length_append]
  exact Nat.le_add_right _ _

theorem entries_concat (fl : Files) (re : Entry) (off : ℕ) :
    Files.entries ⟨fl.rotated, fl.last ++ [(re, off)]⟩ = fl.entries ++ [re] := by
  rw [entries, placed, ← append_assoc, map_append]
  rfl

theorem entries_rotate (fl : Files) : Files.entries ⟨fl.rotated ++ [fl.last], []⟩ = fl.entries := by
  simp [entries, placed]

end Files

namespace EntryLog.Holds

variable {l : EntryLog} {fl : Files} (h : l.Holds fl)

include h

theorem files_eq_nil (hrot : fl.rotated = []) : l.files = [] :=
  length_eq_zero_iff.mp (by rw [h.files.length_eq, hrot, length_nil])

theorem file {i : ℕ} {ls : List Placed} (hi : fl.rotated[i]? = some ls) :
    ∃ f, l.files[i]? = some f ∧ f.Stores ls ∧ Consecutive (ls.map Prod.fst) ∧
      firstOf (ls.map Prod.fst) = firstOf fl.entries + fl.before i ∧
      f.firstIndex = firstOf fl.entries + fl.before i := by
  obtain ⟨hlt, rfl⟩ := List.getElem?_eq_some_iff.mp hi
  have hlen := h.files.length_eq
  have hstores : (l.files[i]).Stores fl.rotated[i] := h.files.get (by omega) hlt
  have hne := h.rotated_ne _ (getElem_mem hlt)
  have hsplit := congrArg (map Prod.fst) (placed_split hi)
  rw [map_append, map_append] at hsplit
  have hcons := h.consecutive
  rw [entries, hsplit] at hcons
  obtain ⟨hmid, hfirst⟩ := hcons.middle (by simpa using hne)
  rw [← hsplit, length_map] at hfirst
  refine ⟨l.files[i], getElem?_eq_getElem (by omega), hstores, hmid, hfirst, ?_⟩
  rw [hstores.firstIndex, hfirst]
  rfl

theorem firstIndex_getElem {i : ℕ} (hi : i < l.files.length) :
    l.files[i].firstIndex = firstOf fl.entries + fl.before i := by
  obtain ⟨f, hf, -, -, -, hfirst⟩ := h.file (getElem?_eq_getElem (h.files.length_eq ▸ hi))
  rw [getElem?_eq_getElem hi] at hf
  rw [Option.some.inj hf, hfirst]

theorem last (hne : fl.last ≠ []) : Consecutive (fl.last.map Prod.fst) ∧
    firstOf (fl.last.map Prod.fst) = firstOf fl.entries + fl.rotated.flatten.length := by
  have hcons := h.consecutive
  have hentries : fl.entries = fl.rotated.flatten.map Prod.fst ++ fl.last.map Prod.fst ++ [] := by
    rw [entries, placed, map_append, append_nil]
  rw [hentries] at hcons
  obtain ⟨hmid, hfirst⟩ := hcons.middle (by simpa using hne)
  rw [← hentries, length_map] at hfirst
  exact ⟨hmid, hfirst⟩

theorem entries_ne_of_rotated (hne : fl.rotated ≠ []) : fl.entries ≠ [] := by
  obtain ⟨ls, rest, hrot⟩ := exists_cons_of_ne_nil hne
  have hls := h.rotated_ne ls (hrot ▸ mem_cons_self)
  rw [entries, placed, hrot]
  simp [hls]

/-- There are entries before every full file but the first, and before the current one if there is a full
file. -/
theorem before_eq_zero_iff {i : ℕ} (hi : i ≤ fl.rotated.length) : fl.before i = 0 ↔ i = 0 := by
  constructor
  · intro hzero
    by_contra hi0
    have h0 := getElem?_eq_getElem (by omega : 0 < fl.rotated.length)
    have hmono := fl.before_mono (by omega : 0 + 1 ≤ i)
    have hne := length_pos_iff.mpr (h.rotated_ne _ (mem_of_getElem? h0))
    rw [fl.before_succ h0] at hmono
    omega
  · rintro rfl
    rfl

theorem flatten_length_eq_zero_iff : fl.rotated.flatten.length = 0 ↔ fl.rotated = [] := by
  rw [← before_length, h.before_eq_zero_iff le_rfl, length_eq_zero_iff]

/-- The search among the full files ends at the first one that begins at the index or above. -/
theorem search (raftIndex : ℕ) :
    ∃ b, sortSearch (fun i => l.files[i]?.any fun f => raftIndex ≤ f.firstIndex) 0 l.files.length = b ∧
      b ≤ fl.rotated.length ∧ (∀ k < b, firstOf fl.entries + fl.before k < raftIndex) ∧
      ∀ k, b ≤ k → k < fl.rotated.length → raftIndex ≤ firstOf fl.entries + fl.before k := by
  have hlen := h.files.length_eq
  have htest : ∀ k < fl.rotated.length, (l.files[k]?.any fun f => raftIndex ≤ f.firstIndex) =
      decide (raftIndex ≤ firstOf fl.entries + fl.before k) := by
    intro k hk
    rw [getElem?_eq_getElem (hlen ▸ hk), Option.any_some, h.firstIndex_getElem]
  have mono : ∀ i j, i ≤ j → j < l.files.length → (l.files[i]?.any fun f => raftIndex ≤ f.firstIndex) = true →
      (l.files[j]?.any fun f => raftIndex ≤ f.firstIndex) = true := by
    intro i j hij hj hi
    have hle := fl.before_mono hij
    rw [htest i (by omega), decide_eq_true_eq] at hi
    rw [htest j (by omega), decide_eq_true_eq]
    omega
  obtain ⟨hb, hlow, hhigh⟩ := sortSearch_spec mono 0 l.files.length (Nat.zero_le _) le_rfl
    (fun k hk => absurd hk (Nat.not_lt_zero k)) (fun k hk hkn => absurd hkn (by omega))
  refine ⟨_, rfl, by omega, fun k hk => ?_, fun k hk hk' => ?_⟩
  · have := hlow k hk
    rw [htest k (by omega), decide_eq_false_iff_not] at this
    omega
  · have := hhigh k hk (by omega)
    rwa [htest k hk', decide_eq_true_eq] at this

theorem located_before {raftIndex b : ℕ} (hb : b ≤ fl.rotated.length) (hpos : 0 < fl.rotated.length)
    (hlow : ∀ k < b, firstOf fl.entries + fl.before k < raftIndex)
    (hhigh : raftIndex < firstOf fl.entries + fl.before b) :
    fl.Located raftIndex (some (b - 1), l.files[b - 1]?.bind fun f => f.slotGe raftIndex) := by
  cases b with
  | zero =>
    obtain ⟨f, hf, hstores, hcons, hfirst, -⟩ := h.file (getElem?_eq_getElem hpos)
    rw [hf, Option.bind_some, hstores.slotGe hcons, hfirst, if_pos (.inr hhigh)]
    exact .below _ (if_neg (ne_nil_of_length_pos hpos)).symm (.inr hhigh)
  | succ b =>
    have hi := getElem?_eq_getElem (by omega : b < fl.rotated.length)
    obtain ⟨f, hf, hstores, hcons, hfirst, -⟩ := h.file hi
    have hlt := hlow b (Nat.lt_succ_self b)
    have hne := h.rotated_ne _ (getElem_mem (by omega : b < fl.rotated.length))
    rw [fl.before_succ hi] at hhigh
    rw [Nat.add_sub_cancel, hf, Option.bind_some, hstores.slotGe hcons, hfirst,
      if_neg (by simp only [hne, false_or]; omega),
      min_eq_left (by omega)]
    exact .rotated hi hlt.le (by omega)

/-- **Where an index is found.** -/
theorem slotGe (hp : fl.Proper) (raftIndex : ℕ) : fl.Located raftIndex (l.slotGe raftIndex) := by
  have hlen := h.files.length_eq
  by_cases hlast : fl.last = []
  · -- the log is empty
    have hrot := hp.rotated_eq_nil hlast
    have hentries : fl.entries = [] := by rw [entries, placed, hrot, hlast]; rfl
    have hslot : l.current.slotGe raftIndex = none := by
      rw [h.current.slotGe (by rw [hlast]; exact consecutive_nil), if_pos (.inl hlast)]
    rw [EntryLog.slotGe, hslot, h.files_eq_nil hrot]
    exact .below none (if_pos hrot).symm (.inl hentries)
  obtain ⟨hcons, hfirst⟩ := h.last hlast
  rcases lt_or_ge raftIndex (firstOf fl.entries + fl.rotated.flatten.length) with hlt | hge
  swap
  · have hslot : l.current.slotGe raftIndex = some
        (min (raftIndex - (firstOf fl.entries + fl.rotated.flatten.length)) fl.last.length) := by
      rw [h.current.slotGe hcons, hfirst, if_neg (by simp only [hlast, false_or]; omega)]
    rw [EntryLog.slotGe, hslot]
    exact .current hlast hge
  have hslot : l.current.slotGe raftIndex = none := by
    rw [h.current.slotGe hcons, hfirst, if_pos (.inr hlt)]
  by_cases hfiles : l.files = []
  · have hrot : fl.rotated = [] := length_eq_zero_iff.mp (by rw [← hlen, hfiles, length_nil])
    rw [EntryLog.slotGe, hslot, hfiles]
    rw [hrot] at hlt
    exact .below none (if_pos hrot).symm (.inr hlt)
  · have hpos := length_pos_iff.mpr hfiles
    obtain ⟨b, hb, hble, hlow, hhigh⟩ := h.search raftIndex
    rw [EntryLog.slotGe, hslot]
    simp only [hb, List.isEmpty_iff, hfiles, if_false]
    rw [← before_length] at hlt
    rcases lt_or_ge b fl.rotated.length with hin | hout
    · obtain ⟨f, hf, -, -, -, hfirst'⟩ := h.file (getElem?_eq_getElem hin)
      simp only [hf, Option.any_some, hfirst', decide_eq_true_eq]
      split_ifs with hat
      · -- a full file begins at the index
        have hne := length_pos_iff.mpr (h.rotated_ne _ (getElem_mem hin))
        have hloc : fl.Located raftIndex (some b, some (raftIndex - (firstOf fl.entries + fl.before b))) :=
          .rotated (getElem?_eq_getElem hin) (by omega) (by omega)
        rwa [hat, Nat.sub_self] at hloc
      · have hle := hhigh b le_rfl hin
        exact h.located_before hin.le (by omega) hlow (by omega)
    · rw [getElem?_eq_none (by omega : l.files.length ≤ b)]
      obtain rfl : b = fl.rotated.length := by omega
      exact h.located_before le_rfl (by omega) hlow hlt

end EntryLog.Holds

/-! ### Removing entries -/

/-- What is left of the files if the entries from a position on are removed. -/
def Files.removed (fl : Files) : Option ℕ × Option ℕ → Files
  | (_, none) => fl
  | (none, some k) => ⟨fl.rotated, fl.last.take k⟩
  | (some i, some k) => ⟨fl.rotated.take i, cleared ((fl.rotated[i]?.getD []).take k)⟩

theorem map_index_cleared (ls : List Placed) :
    ((cleared ls).map Prod.fst).map Entry.index = (ls.map Prod.fst).map Entry.index := by
  cases ls <;> rfl

namespace EntryLog.Holds

variable {l : EntryLog} {fl : Files} (h : l.Holds fl)

include h

theorem takeLast {k : ℕ} (hk : k ≤ fl.last.length) : EntryLog.Holds ⟨l.files,
      if k < l.nextEntryIdx then
        l.current.writeSlice (entrySize * k) (replicate (entrySize * l.nextEntryIdx - entrySize * k) 0)
      else l.current, k⟩ ⟨fl.rotated, fl.last.take k⟩ := by
  refine ⟨h.files, ?_, (length_take_of_le hk).symm, h.rotated_ne, ?_⟩
  · rw [h.nextEntryIdx]
    split_ifs with hlt
    · have hclear := h.current.clearTail hk
      rwa [clear, Nat.mul_comm] at hclear
    · rw [take_of_length_le (by omega)]
      exact h.current
  · have hcons := h.consecutive
    have hsplit : fl.entries =
        (fl.rotated.flatten ++ fl.last.take k).map Prod.fst ++ (fl.last.drop k).map Prod.fst := by
      rw [← map_append, append_assoc, take_append_drop]
      rfl
    rw [hsplit] at hcons
    exact (consecutive_append.mp hcons).1

theorem takeRotated {i k : ℕ} {ls : List Placed} {f : FileWrap} (hi : fl.rotated[i]? = some ls)
    (hf : f.Stores ls) (hk : k < ls.length) :
    EntryLog.Holds ⟨l.files.take i, f.writeSlice (entrySize * k) (replicate (logFileOffset - entrySize * k) 0), k⟩
      ⟨fl.rotated.take i, cleared (ls.take k)⟩ := by
  refine ⟨forall₂_take i h.files, ?_, ?_, fun ls' hls' => h.rotated_ne ls' (mem_of_mem_take hls'), ?_⟩
  · have hclear := hf.clearAll hk
    rwa [clear, Nat.mul_comm] at hclear
  · rw [length_cleared, length_take_of_le hk.le]
  · have hcons := h.consecutive
    have hsplit : fl.entries = ((fl.rotated.take i).flatten ++ ls.take k).map Prod.fst ++
        (ls.drop k ++ ((fl.rotated.drop (i + 1)).flatten ++ fl.last)).map Prod.fst := by
      rw [← map_append, entries, fl.placed_split hi]
      conv_lhs => rw [← take_append_drop k ls]
      simp only [append_assoc]
    rw [hsplit] at hcons
    refine (consecutive_append.mp hcons).1.congr ?_
    rw [entries, placed, map_append, map_append, map_append, map_append, map_index_cleared]

/-- **Removing entries.** -/
theorem removeFrom (hp : fl.Proper) (raftIndex : ℕ) :
    ∃ l', l.removeFrom raftIndex = some l' ∧ l'.Holds (fl.removed (l.slotGe raftIndex)) := by
  have hloc := h.slotGe hp raftIndex
  rw [EntryLog.removeFrom]
  cases hpos : l.slotGe raftIndex with
  | mk fidx off =>
    rw [hpos] at hloc
    cases hloc with
    | below => exact ⟨l, rfl, h⟩
    | current hne hle => exact ⟨_, rfl, h.takeLast (Nat.min_le_right _ _)⟩
    | rotated hi hle hlt =>
      obtain ⟨f, hf, hstores, -, -, -⟩ := h.file hi
      refine ⟨_, congrArg (Option.map _) hf, ?_⟩
      rw [removed, hi, Option.getD_some]
      exact h.takeRotated hi hstores (by omega)

/-! ### Writing entries -/

theorem last_slot {init : List Placed} {last : Placed} (hlast : fl.last = init ++ [last]) :
    0 < fl.last.length ∧ l.current.getEntry (fl.last.length - 1) = last.slot := by
  have hget : fl.last[fl.last.length - 1]? = some last := by
    rw [← getLast?_eq_getElem?, hlast, getLast?_concat]
  exact ⟨length_pos_of_mem (mem_of_getElem? hget), h.current.slot _ _ hget⟩

theorem startOffset : l.startOffset = some (nextOffset fl.last) := by
  rw [EntryLog.startOffset, h.nextEntryIdx]
  rcases eq_nil_or_concat' fl.last with hnil | ⟨init, last, hlast⟩
  · rw [hnil]
    rfl
  · obtain ⟨hpos, hslot⟩ := h.last_slot hlast
    have hmem : last ∈ fl.last := hlast ▸ mem_concat_self
    have hnext : nextOffset fl.last = last.2 + (unit32Size + last.1.data.length) := by
      rw [hlast, nextOffset_concat, ← Nat.add_assoc]
      rfl
    rw [if_pos hpos, hslot]
    simp only [Placed.slot, h.current.sliceSize hmem, Option.map_some, hnext]

theorem write (hcount : fl.last.length < maxNumEntries) {re : Entry} (hre : re.Fits)
    (hroom : nextOffset fl.last + unit32Size + re.data.length ≤ maxLogFileSize)
    (hcons : Consecutive (fl.entries ++ [re])) :
    (l.write (nextOffset fl.last) re).Holds ⟨fl.rotated, fl.last ++ [(re, nextOffset fl.last)]⟩ := by
  refine ⟨h.files, ?_, ?_, h.rotated_ne, ?_⟩
  · rw [EntryLog.write, h.nextEntryIdx]
    exact h.current.putEntry hcount hre hroom
  · rw [EntryLog.write, h.nextEntryIdx, length_append, length_singleton]
  · rwa [entries_concat]

theorem rotate (hne : fl.last ≠ []) : (l.rotate (nextOffset fl.last)).Holds ⟨fl.rotated ++ [fl.last], []⟩ := by
  refine ⟨?_, FileWrap.Stores.create, rfl, ?_, ?_⟩
  · exact rel_append h.files (List.Forall₂.cons h.current.truncate List.Forall₂.nil)
  · exact forall_mem_append.mpr ⟨h.rotated_ne, forall_mem_singleton.mpr hne⟩
  · rw [entries_rotate]
    exact h.consecutive

end EntryLog.Holds

/-- **Writing entry after entry.** -/
theorem EntryLog.Holds.writeAll {es : List Entry} (hes : ∀ e ∈ es, e.Fits) {l : EntryLog} {fl : Files}
    (h : l.Holds fl) (hcons : Consecutive (fl.entries ++ es)) :
    ∃ fl', (l.writeAll (nextOffset fl.last) es).Holds fl' ∧ fl'.entries = fl.entries ++ es ∧
      (fl.last ≠ [] ∨ es ≠ [] → fl'.last ≠ []) := by
  induction es generalizing l fl with
  | nil => exact ⟨fl, h, (append_nil _).symm, by simp⟩
  | cons re es ih =>
    have hre := hes re mem_cons_self
    have hcons' : Consecutive (fl.entries ++ [re] ++ es) := by
      rwa [append_assoc]
    have hone : Consecutive (fl.entries ++ [re]) := (consecutive_append.mp hcons').1
    rw [EntryLog.writeAll, h.nextEntryIdx]
    -- the file the entry goes to
    obtain ⟨l', fl', heq, h', hentries, hlast⟩ : ∃ l' fl',
        (if maxNumEntries ≤ fl.last.length ∨ maxLogFileSize < nextOffset fl.last + unit32Size + re.data.length then
            EntryLog.writeAll ((l.rotate (nextOffset fl.last)).write logFileOffset re)
              (logFileOffset + unit32Size + re.data.length) es
          else EntryLog.writeAll (l.write (nextOffset fl.last) re)
            (nextOffset fl.last + unit32Size + re.data.length) es) =
          EntryLog.writeAll l' (nextOffset fl'.last) es ∧
        l'.Holds fl' ∧ fl'.entries = fl.entries ++ [re] ∧ fl'.last ≠ [] := by
      split_ifs with hfull
      · have hne : fl.last ≠ [] := by
          intro hnil
          have hpos : 0 < maxNumEntries := by decide
          have hoff : nextOffset fl.last = logFileOffset := by rw [hnil]; rfl
          have hroom := hre.data_le
          rw [hnil, length_nil] at hfull
          rw [hnil] at hoff
          omega
        have hrotate := h.rotate hne
        have hroom : nextOffset [] + unit32Size + re.data.length ≤ maxLogFileSize := by
          exact hre.data_le
        have hwrite := hrotate.write (show 0 < maxNumEntries by decide) hre hroom (by rwa [entries_rotate])
        rw [nextOffset_nil] at hwrite
        refine ⟨_, _, ?_, hwrite, ?_, by simp⟩
        · rw [nextOffset_concat, Placed.dataEnd]
        · rw [entries_concat ⟨fl.rotated ++ [fl.last], []⟩, entries_rotate]
      · rw [not_or, not_le, not_lt] at hfull
        refine ⟨_, ⟨fl.rotated, fl.last ++ [(re, nextOffset fl.last)]⟩, ?_, h.write hfull.1 hre hfull.2 hone,
          fl.entries_concat re _, by simp⟩
        rw [nextOffset_concat, Placed.dataEnd]
    obtain ⟨fl'', h'', hentries', hne⟩ := ih (forall_mem_cons.mp hes).2 h' (by rwa [hentries])
    refine ⟨fl'', heq ▸ h'', ?_, fun _ => hne (.inl hlast)⟩
    rw [hentries', hentries, append_assoc]
    rfl

/-! ### Reading entries -/

/-- The largest size: no limit. -/
def maxUint64 : ℕ := 2 ^ 64 - 1

section Read

variable (size : Entry → ℕ) {hi : ℕ}

theorem readEntries_file {f : FileWrap} {ls : List Placed} (hf : f.Stores ls) (hhi : 0 < hi)
    (hlt : ∀ p ∈ ls, p.1.index < hi) (fs : List FileWrap) (offset total : ℕ) (entries : List Entry) :
    ∃ total', EntryLog.readEntries size hi maxUint64 (f :: fs) offset total entries =
      EntryLog.readEntries size hi maxUint64 fs 0 total' (entries ++ (ls.drop offset).map Prod.fst) := by
  have hlen := hf.length_le
  induction hn : ls.length - offset generalizing offset total entries with
  | zero =>
    rw [drop_eq_nil_of_le (by omega), map_nil, append_nil]
    refine ⟨total, ?_⟩
    rw [EntryLog.readEntries]
    split_ifs with hmax
    · rfl
    · obtain ⟨e, he, hzero⟩ := hf.getRaftEntry_empty (by omega : ls.length ≤ offset) (by omega)
      rw [he, Option.bind_some, if_neg (by omega), if_pos hzero]
  | succ n ih =>
    have hoff : offset < ls.length := by omega
    have hget := getElem?_eq_getElem hoff
    have hmem := getElem_mem hoff
    have hpos := (hf.fits _ hmem).index_pos
    have hlt' := hlt _ hmem
    obtain ⟨total', htotal⟩ := ih (offset + 1) ((total + size ls[offset].1) % 2 ^ 64)
      (entries ++ [ls[offset].1]) (by omega)
    refine ⟨total', ?_⟩
    rw [EntryLog.readEntries, dif_neg (by omega), hf.getRaftEntry hget, Option.bind_some, if_neg (by omega),
      if_neg (by omega), if_neg (by unfold maxUint64; omega), htotal, append_assoc,
      drop_eq_getElem_cons hoff]
    rfl

theorem readEntries_files {fs : List FileWrap} {lss : List (List Placed)}
    (hfs : List.Forall₂ FileWrap.Stores fs lss) (hhi : 0 < hi) (hlt : ∀ p ∈ lss.flatten, p.1.index < hi)
    (total : ℕ) (entries : List Entry) :
    EntryLog.readEntries size hi maxUint64 fs 0 total entries = some (entries ++ lss.flatten.map Prod.fst) := by
  induction hfs generalizing total entries with
  | nil =>
    rw [EntryLog.readEntries, flatten_nil, map_nil, append_nil]
  | cons hf _ ih =>
    obtain ⟨total', htotal⟩ := readEntries_file size hf hhi (fun p hp => hlt p (mem_append_left _ hp)) _ 0 total entries
    rw [htotal, ih (fun p hp => hlt p (mem_append_right _ hp)), drop_zero, flatten_cons, map_append, append_assoc]

end Read

namespace EntryLog.Holds

variable {l : EntryLog} {fl : Files} (h : l.Holds fl)

include h

theorem mem_fits {p : Placed} (hp : p ∈ fl.placed) : p.1.Fits := by
  rcases mem_append.mp hp with hp | hp
  · obtain ⟨ls, hls, hp⟩ := mem_flatten.mp hp
    obtain ⟨i, hi⟩ := getElem?_of_mem hls
    obtain ⟨f, -, hstores, -⟩ := h.file hi
    exact hstores.fits p hp
  · exact h.current.fits p hp

theorem firstOf_pos (hne : fl.entries ≠ []) : 0 < firstOf fl.entries := by
  obtain ⟨p, ps, hplaced⟩ := exists_cons_of_ne_nil (show fl.placed ≠ [] by simpa [entries] using hne)
  have hfits := h.mem_fits (hplaced ▸ mem_cons_self)
  rw [entries, hplaced]
  exact hfits.index_pos

theorem firstIndex : l.firstIndex = if fl.entries = [] then 1 else firstOf fl.entries := by
  have hhead : ((l.files.head?.getD l.current).getEntry 0).index = firstOf fl.entries := by
    rcases Nat.eq_zero_or_pos fl.rotated.length with hzero | hpos
    · have hrot := length_eq_zero_iff.mp hzero
      rw [h.files_eq_nil hrot, entries, placed, hrot]
      exact h.current.firstIndex
    · obtain ⟨f, hf, -, -, -, hfirst⟩ := h.file (getElem?_eq_getElem hpos)
      rw [head?_eq_getElem?, hf]
      exact hfirst
  rw [EntryLog.firstIndex]
  simp only [hhead]
  by_cases hne : fl.entries = []
  · rw [hne]
    rfl
  · rw [if_neg hne, if_neg (h.firstOf_pos hne).ne']

variable (hp : fl.Proper)

include hp

omit h in
theorem entries_eq_nil_iff : fl.entries = [] ↔ fl.last = [] := by
  rw [entries, map_eq_nil_iff, placed, append_eq_nil_iff]
  refine ⟨And.right, fun hlast => ⟨?_, hlast⟩⟩
  rw [hp.rotated_eq_nil hlast]
  rfl

theorem lastIndex : l.lastIndex = lastOf fl.entries := by
  rw [EntryLog.lastIndex, h.nextEntryIdx]
  rcases eq_nil_or_concat' fl.last with hnil | ⟨init, last, hlast⟩
  · rw [(entries_eq_nil_iff hp).mpr hnil, hnil, h.files_eq_nil (hp.rotated_eq_nil hnil)]
    rfl
  · obtain ⟨hpos, hslot⟩ := h.last_slot hlast
    rw [if_pos hpos, hslot, entries, placed, hlast, ← append_assoc, map_append, lastOf_append (by simp)]
    rfl

theorem slotGe_firstIndex : ∃ fidx off, l.slotGe l.firstIndex = (fidx, off) ∧
    l.filesFrom fidx = l.files ++ [l.current] ∧ off.getD 0 = 0 := by
  have hloc := h.slotGe hp l.firstIndex
  have hfirst := h.firstIndex
  have hnone : fl.rotated = [] → ∀ fidx, l.filesFrom fidx = l.files ++ [l.current] := by
    intro hrot fidx
    cases fidx <;> simp [EntryLog.filesFrom, h.files_eq_nil hrot]
  cases hpos : l.slotGe l.firstIndex with
  | mk fidx off =>
    rw [hpos] at hloc
    refine ⟨fidx, off, rfl, ?_⟩
    cases hloc with
    | below _ _ hbelow =>
      have hnil : fl.entries = [] := by
        by_contra hne
        rw [if_neg hne] at hfirst
        have := hbelow.resolve_left hne
        omega
      refine ⟨hnone ?_ fidx, rfl⟩
      by_contra hrot
      exact h.entries_ne_of_rotated hrot hnil
    | current hne hle =>
      rw [if_neg (mt (entries_eq_nil_iff hp).mp hne)] at hfirst
      refine ⟨hnone (h.flatten_length_eq_zero_iff.mp (by omega)) none, by rw [Option.getD_some]; omega⟩
    | @rotated i ls hi hle hlt =>
      have hrot : fl.rotated ≠ [] := ne_nil_of_mem (mem_of_getElem? hi)
      rw [if_neg (h.entries_ne_of_rotated hrot)] at hfirst
      obtain rfl : i = 0 := (h.before_eq_zero_iff (List.getElem?_eq_some_iff.mp hi).1.le).mp (by omega)
      exact ⟨rfl, by rw [Option.getD_some]; omega⟩

/-- **All entries** are read. -/
theorem allEntries (size : Entry → ℕ) :
    l.allEntries size l.firstIndex (l.lastIndex + 1) maxUint64 = some fl.entries := by
  have hlt : ∀ p ∈ fl.placed, p.1.index < l.lastIndex + 1 := by
    intro p hp'
    rw [h.lastIndex hp]
    exact Nat.lt_succ_of_le (h.consecutive.index_le_lastOf (mem_map_of_mem hp'))
  have hflat : (fl.rotated ++ [fl.last]).flatten = fl.placed := by
    simp [placed]
  have hcurrent : List.Forall₂ FileWrap.Stores [l.current] [fl.last] := .cons h.current .nil
  have hfiles : List.Forall₂ FileWrap.Stores (l.files ++ [l.current]) (fl.rotated ++ [fl.last]) :=
    rel_append h.files hcurrent
  have hall := readEntries_files size hfiles (Nat.succ_pos l.lastIndex) (hflat ▸ hlt) 0 []
  rw [hflat] at hall
  obtain ⟨fidx, off, hpos, hfrom, hoff⟩ := h.slotGe_firstIndex hp
  rw [EntryLog.allEntries, hpos]
  simp only [hfrom, hoff]
  exact hall

end EntryLog.Holds

/-- The term of an index in a list of entries. -/
def termOf (es : List Entry) (idx : ℕ) : Except SeekError ℕ :=
  if idx = 0 then .ok 0
  else if es = [] ∨ idx < firstOf es then .error .compacted
  else es[idx - firstOf es]?.elim (.error .unavailable) fun e => .ok e.term

namespace EntryLog.Holds

variable {l : EntryLog} {fl : Files} (h : l.Holds fl)

include h

theorem index_of_placed {i : ℕ} {p : Placed} (hp : fl.placed[i]? = some p) : p.1.index = firstOf fl.entries + i := by
  have hget : fl.entries[i]? = some p.1 := by rw [entries, getElem?_map, hp]; rfl
  have hi' : i < fl.entries.length := (List.getElem?_eq_some_iff.mp hget).1
  have hindex := h.consecutive.index_getElem hi'
  rw [getElem?_eq_getElem hi'] at hget
  rw [← hindex, Option.some.inj hget]

theorem term_of_file {fidx : Option ℕ} {f : FileWrap} {ls : List Placed} {n j : ℕ}
    (h0 : firstOf fl.entries + (n + j) ≠ 0)
    (hpos : l.slotGe (firstOf fl.entries + (n + j)) = (fidx, some (min j ls.length)))
    (hfile : l.getEntryFile fidx = some f) (hf : f.Stores ls) (hget : fl.placed[n + j]? = ls[j]?) :
    l.term (firstOf fl.entries + (n + j)) = fl.entries[n + j]?.elim (.error .unavailable) fun e => .ok e.term := by
  have hmax := hf.length_le
  have hentry : fl.entries[n + j]? = ls[j]?.map Prod.fst := by rw [entries, getElem?_map, hget]
  rw [EntryLog.term, EntryLog.seekEntry, if_neg h0, hpos, hentry]
  cases hj : ls[j]? with
  | some p =>
    have hlt := (List.getElem?_eq_some_iff.mp hj).1
    have hindex : p.slot.index = firstOf fl.entries + (n + j) := h.index_of_placed (hget.trans hj)
    rw [Nat.min_eq_left hlt.le]
    simp only [if_neg (by omega : ¬ maxNumEntries ≤ j), hfile, Option.elim_some, hf.slot j p hj, hindex, if_neg h0,
      ne_eq]
    rfl
  | none =>
    rw [Nat.min_eq_right (getElem?_eq_none_iff.mp hj)]
    by_cases hfull : maxNumEntries ≤ ls.length
    · simp only [if_pos hfull]
      rfl
    · simp only [if_neg hfull, hfile, Option.elim_some, (hf.empty _ le_rfl (by omega)).1]
      rfl

/-- **Terms** are those of the entries. -/
theorem term (hp : fl.Proper) (raftIndex : ℕ) : l.term raftIndex = termOf fl.entries raftIndex := by
  have hloc := h.slotGe hp raftIndex
  by_cases h0 : raftIndex = 0
  · rw [h0]
    rfl
  rw [termOf, if_neg h0]
  cases hpos : l.slotGe raftIndex with
  | mk fidx off =>
    rw [hpos] at hloc
    cases hloc with
    | below _ _ hbelow => rw [if_pos hbelow, EntryLog.term, EntryLog.seekEntry, if_neg h0, hpos]; rfl
    | current hne hle =>
      rw [if_neg (by rw [entries_eq_nil_iff hp]; simp only [hne, false_or]; omega)]
      obtain ⟨j, rfl⟩ : ∃ j, raftIndex = firstOf fl.entries + (fl.rotated.flatten.length + j) :=
        ⟨raftIndex - (firstOf fl.entries + fl.rotated.flatten.length), by omega⟩
      rw [← Nat.add_assoc, Nat.add_sub_cancel_left, Nat.add_assoc] at hpos
      rw [Nat.add_sub_cancel_left]
      exact h.term_of_file h0 hpos rfl h.current (fl.getElem?_placed_last j)
    | @rotated i ls hi hle hlt =>
      have hrot : fl.rotated ≠ [] := ne_nil_of_mem (mem_of_getElem? hi)
      rw [if_neg (by simp only [h.entries_ne_of_rotated hrot, false_or]; omega)]
      obtain ⟨f, hf, hstores, -, -, -⟩ := h.file hi
      obtain ⟨j, rfl⟩ : ∃ j, raftIndex = firstOf fl.entries + (fl.before i + j) :=
        ⟨raftIndex - (firstOf fl.entries + fl.before i), by omega⟩
      have hj : j < ls.length := by omega
      have hoff : firstOf fl.entries + (fl.before i + j) - (firstOf fl.entries + fl.before i) =
          min j ls.length := by omega
      rw [hoff] at hpos
      rw [Nat.add_sub_cancel_left]
      exact h.term_of_file h0 hpos hf hstores (fl.getElem?_placed_rotated hi hj)

end EntryLog.Holds

/-! ### Deleting files -/

namespace Files

variable {fl : Files}

/-- What is left if the files before a position are deleted. -/
def keptFrom (fl : Files) : Option ℕ × Option ℕ → Files
  | (_, none) => fl
  | (none, some _) => ⟨[], fl.last⟩
  | (some i, some _) => ⟨fl.rotated.drop i, fl.last⟩

/-- How many entries are deleted. -/
def droppedBy (fl : Files) : Option ℕ × Option ℕ → ℕ
  | (_, none) => 0
  | (none, some _) => fl.rotated.flatten.length
  | (some i, some _) => fl.before i

theorem placed_keptFrom (fl : Files) (loc : Option ℕ × Option ℕ) :
    (fl.keptFrom loc).placed = fl.placed.drop (fl.droppedBy loc) := by
  rcases loc with ⟨fidx | i, off | k⟩
  · rfl
  · exact (drop_left).symm
  · rfl
  · have hsplit : fl.rotated.flatten = (fl.rotated.take i).flatten ++ (fl.rotated.drop i).flatten := by
      rw [← flatten_append, take_append_drop]
    have hplaced : fl.placed = (fl.rotated.take i).flatten ++ ((fl.rotated.drop i).flatten ++ fl.last) := by
      rw [placed, hsplit, append_assoc]
    rw [hplaced]
    exact (drop_left).symm

theorem entries_keptFrom (fl : Files) (loc : Option ℕ × Option ℕ) :
    (fl.keptFrom loc).entries = fl.entries.drop (fl.droppedBy loc) := by
  rw [entries, placed_keptFrom, map_drop]
  rfl

theorem Located.droppedBy_le {raftIndex : ℕ} {loc : Option ℕ × Option ℕ} (h : fl.Located raftIndex loc) :
    fl.droppedBy loc = 0 ∨ firstOf fl.entries + fl.droppedBy loc ≤ raftIndex := by
  cases h with
  | below => exact Or.inl rfl
  | current hne hle | rotated hi hle hlt => exact Or.inr hle

/-- If another index is in the same file, nothing above it is deleted either. -/
theorem Located.droppedBy_le_of_same {a b : ℕ} {fidx offa offb : Option ℕ} (ha : fl.Located a (fidx, offa))
    (hb : fl.Located b (fidx, offb)) :
    fl.droppedBy (fidx, offa) = 0 ∨ firstOf fl.entries + fl.droppedBy (fidx, offa) ≤ b := by
  cases ha with
  | below => exact Or.inl rfl
  | current hne hle =>
    cases hb with
    | below _ hfidx =>
      split_ifs at hfidx with hrot
      exact Or.inl (by rw [droppedBy, hrot]; rfl)
    | current hne' hle' => exact Or.inr hle'
  | rotated hi hle hlt =>
    cases hb with
    | below _ hfidx =>
      split_ifs at hfidx with hrot
      cases hfidx
      exact Or.inl rfl
    | rotated hi' hle' hlt' => exact Or.inr hle'

theorem Proper.keptFrom (hp : fl.Proper) (loc : Option ℕ × Option ℕ) : (fl.keptFrom loc).Proper := by
  rcases loc with ⟨fidx | i, off | k⟩
  · exact hp
  · exact fun hne => absurd rfl hne
  · exact hp
  · intro hne
    refine hp fun hnil => hne ?_
    rw [Files.keptFrom, hnil, drop_nil]

end Files

namespace EntryLog.Holds

variable {l : EntryLog} {fl : Files} (h : l.Holds fl)

include h

/-- **Deleting files.** -/
theorem deleteBefore (hp : fl.Proper) (raftIndex : ℕ) :
    (l.deleteBefore raftIndex).Holds (fl.keptFrom (l.slotGe raftIndex)) := by
  have hloc := h.slotGe hp raftIndex
  have hcons : Consecutive (fl.keptFrom (l.slotGe raftIndex)).entries := by
    have hcons := h.consecutive
    rw [← take_append_drop (fl.droppedBy (l.slotGe raftIndex)) fl.entries] at hcons
    rw [fl.entries_keptFrom]
    exact (consecutive_append.mp hcons).2.1
  rw [EntryLog.deleteBefore]
  cases hpos : l.slotGe raftIndex with
  | mk fidx off =>
    rw [hpos] at hloc hcons
    cases hloc with
    | below => exact h
    | current hne hle => exact ⟨.nil, h.current, h.nextEntryIdx, by simp [keptFrom], hcons⟩
    | @rotated i ls hi hle hlt =>
      have hlen := h.files.length_eq
      have hi' := (List.getElem?_eq_some_iff.mp hi).1
      simp only [if_neg (by omega : ¬ l.files.length ≤ i)]
      refine ⟨forall₂_drop _ h.files, h.current, h.nextEntryIdx, fun ls hls => ?_, hcons⟩
      exact h.rotated_ne ls (mem_of_mem_drop hls)

/-! ### Opening the log again -/

theorem reopenAll (hne : fl.last ≠ []) : EntryLog.Holds ⟨(l.files ++ [l.current]).map reopen, openFile [], 0⟩
      ⟨fl.rotated ++ [fl.last], []⟩ := by
  refine ⟨?_, FileWrap.Stores.create, rfl, (h.rotate hne).rotated_ne, (h.rotate hne).consecutive⟩
  have hfiles : List.Forall₂ FileWrap.Stores (l.files ++ [l.current]) (fl.rotated ++ [fl.last]) :=
    rel_append h.files (.cons h.current .nil)
  exact forall₂_map_left_iff.mpr (hfiles.imp fun f ls hf => hf.reopen)

theorem pairwise_firstIndex : l.files.Pairwise fun f f' => f.firstIndex < f'.firstIndex := by
  have hlen := h.files.length_eq
  refine pairwise_iff_getElem.mpr fun i j hi hj hij => ?_
  have hi' : i < fl.rotated.length := hlen ▸ hi
  have hne := length_pos_iff.mpr (h.rotated_ne _ (getElem_mem hi'))
  have hmono := fl.before_mono (by omega : i + 1 ≤ j)
  rw [fl.before_succ (getElem?_eq_getElem hi')] at hmono
  rw [h.firstIndex_getElem hi, h.firstIndex_getElem hj]
  omega

theorem firstIndex_pos {f : FileWrap} (hf : f ∈ l.files) : f.firstIndex ≠ 0 := by
  obtain ⟨i, hi, rfl⟩ := getElem_of_mem hf
  have hi' : i < fl.rotated.length := h.files.length_eq ▸ hi
  have hpos := h.firstOf_pos (h.entries_ne_of_rotated (ne_nil_of_length_pos (by omega)))
  rw [h.firstIndex_getElem hi]
  omega

/-- **Opening the log again** changes nothing. -/
theorem openEntryLogs (hp : fl.Proper) : (EntryLog.openEntryLogs l.dir).Holds fl := by
  have hreopen : l.dir.map openFile = (l.files ++ [l.current]).map reopen := by
    rw [EntryLog.dir, map_map]
    rfl
  by_cases hlast : fl.last = []
  · -- the only file is empty, and a new one takes its place
    have hrot := hp.rotated_eq_nil hlast
    have hempty : l.current.reopen.firstIndex = 0 := by
      rw [h.current.reopen.firstIndex, hlast]
      rfl
    have hopen : EntryLog.openEntryLogs l.dir = ⟨[], openFile [], 0⟩ := by
      rw [EntryLog.openEntryLogs, hreopen, h.files_eq_nil hrot]
      simp [stableSort, hempty]
    obtain ⟨rotated, last⟩ := fl
    obtain rfl : rotated = [] := hrot
    obtain rfl : last = [] := hlast
    rw [hopen]
    exact ⟨.nil, FileWrap.Stores.create, rfl, by simp, consecutive_nil⟩
  · have hall := h.reopenAll hlast
    have hsorted : stableSort FileWrap.firstIndex ((l.files ++ [l.current]).map reopen) =
        (l.files ++ [l.current]).map reopen :=
      stableSort_eq (List.Perm.refl _) hall.pairwise_firstIndex
    have hkept : ((l.files ++ [l.current]).map reopen).filter (fun f => f.firstIndex ≠ 0) =
        l.files.map reopen ++ [l.current.reopen] := by
      rw [filter_eq_self.mpr fun f hf => decide_eq_true (hall.firstIndex_pos hf), map_append]
      rfl
    have hopen : EntryLog.openEntryLogs l.dir =
        ⟨l.files.map reopen, l.current.reopen, l.current.reopen.firstEmptySlot⟩ := by
      rw [EntryLog.openEntryLogs]
      simp only [hreopen, hsorted, hkept, getLast?_concat, dropLast_concat]
    rw [hopen]
    refine ⟨forall₂_map_left_iff.mpr (h.files.imp fun f ls hf => hf.reopen), h.current.reopen,
      h.current.reopen.firstEmptySlot, h.rotated_ne, h.consecutive⟩

end EntryLog.Holds

end GeminiTS.Raft
