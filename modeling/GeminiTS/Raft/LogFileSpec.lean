import GeminiTS.Raft.LogFile

/-!
# LogFileSpec — what a file of the raft log stores
-/

namespace GeminiTS.Raft

open Lib List

theorem slots_fit : maxNumEntries * entrySize + unit32Size ≤ logFileOffset := by decide

theorem length_marshalEntry (term index typ offset : ℕ) : (marshalEntry term index typ offset).length = entrySize := by
  simp [marshalEntry, entrySize]

theorem slice_marshalEntry (term index typ offset : ℕ) :
    slice (marshalEntry term index typ offset) 0 8 = beBytes 8 term ∧
    slice (marshalEntry term index typ offset) 8 8 = beBytes 8 index ∧
    slice (marshalEntry term index typ offset) 16 8 = beBytes 8 typ ∧
    slice (marshalEntry term index typ offset) 24 8 = beBytes 8 offset := by
  have hdrop : ∀ n k, 8 ≤ k → (beBytes 8 n).drop k = [] := fun n k hk =>
    drop_eq_nil_of_le (by rwa [length_beBytes])
  simp [marshalEntry, slice, drop_append, hdrop]

theorem beNat_replicate_zero (n : ℕ) : beNat (replicate n 0) = 0 := by
  induction n with
  | zero => rfl
  | succ n ih => rw [replicate_succ', beNat_concat, ih]; rfl

/-- The type of an entry survives being stored as an unsigned number. -/
theorem ofNat_uint64_toInt (t : EntryType) : Int32.ofNat (uint64 t.toInt) = t := by
  have hlow := t.le_toInt
  have hhigh := t.toInt_lt
  have hsize : Int32.size = 4294967296 := rfl
  refine Int32.toInt_inj.mp ?_
  rw [Int32.toInt_ofNat', uint64, Int.bmod_def, hsize]
  omega

/-- An entry whose numbers fit their fields and whose data fits a file. -/
structure Entry.Fits (e : Entry) : Prop where
  term_lt : e.term < 2 ^ 64
  index_pos : 0 < e.index
  index_lt : e.index + 1 < 2 ^ 64
  data_le : logFileOffset + unit32Size + e.data.length ≤ maxLogFileSize

/-- An entry and the offset of its data. -/
abbrev Placed := Entry × ℕ

/-- The end of the data. -/
def Placed.dataEnd (p : Placed) : ℕ := p.2 + unit32Size + p.1.data.length

/-- The slot of an entry. -/
def Placed.slot (p : Placed) : Slot := ⟨p.1.term, p.1.index, uint64 p.1.type.toInt, p.2⟩

/-- The length and the data. -/
def Placed.bytes (p : Placed) : Bytes := beBytes unit32Size p.1.data.length ++ p.1.data

/-- Where the data of the next entry goes. -/
def nextOffset (ls : List Placed) : ℕ := (ls.getLast?.map Placed.dataEnd).getD logFileOffset

theorem nextOffset_nil : nextOffset [] = logFileOffset := by
  rw [nextOffset, getLast?_nil, Option.map_none, Option.getD_none]

variable (ls : List Placed)

theorem nextOffset_concat (p : Placed) : nextOffset (ls ++ [p]) = p.dataEnd := by
  rw [nextOffset, getLast?_concat]
  rfl

namespace FileWrap

/-- The file stores the entries. -/
structure Stores (f : FileWrap) (ls : List Placed) : Prop where
  le_disk : logFileOffset ≤ f.disk.length
  disk_cut : f.disk <+: f.data
  length_le : ls.length ≤ maxNumEntries
  slot : ∀ (i : ℕ) (p : Placed), ls[i]? = some p → f.getEntry i = p.slot
  empty : ∀ i, ls.length ≤ i → i < maxNumEntries → (f.getEntry i).index = 0 ∧ (f.getEntry i).offset = 0
  fits : ∀ p ∈ ls, p.1.Fits
  data : ∀ p ∈ ls, slice f.data p.2 (unit32Size + p.1.data.length) = p.bytes
  dataEnd_le : ∀ p ∈ ls, p.dataEnd ≤ f.disk.length ∧ p.dataEnd ≤ maxLogFileSize
  ascending : ls.Pairwise fun p q => p.dataEnd ≤ q.2
  head : ∀ p, ls.head? = some p → p.2 = logFileOffset

variable {f : FileWrap}

/-! ### Writing leaves the rest as it is -/

theorem data_writeAt {off : ℕ} {dat : Bytes} (h : off + dat.length ≤ f.data.length) :
    (f.writeAt off dat).data = patch 0 f.data off dat := by
  refine take_of_length_le ?_
  rw [length_patch]
  omega

section Write

variable {off : ℕ} {dat : Bytes}

theorem length_writeSlice : unit32Size + dat.length = (beBytes unit32Size dat.length ++ dat).length := by
  rw [length_append, length_beBytes]

theorem slice_writeSlice_before {off' n : ℕ} (h : off' + n ≤ off) (hf : off' + n ≤ f.data.length) :
    slice (f.writeSlice off dat).data off' n = slice f.data off' n :=
  slice_patch_before 0 h hf _

theorem slice_writeSlice_after {off' : ℕ} (h : off + unit32Size + dat.length ≤ off') (n : ℕ) :
    slice (f.writeSlice off dat).data off' n = slice f.data off' n := by
  refine slice_patch_after 0 ?_ n
  rw [← length_writeSlice]
  omega

theorem slice_writeSlice_self :
    slice (f.writeSlice off dat).data off (unit32Size + dat.length) = beBytes unit32Size dat.length ++ dat := by
  rw [length_writeSlice]
  exact slice_patch_self 0 f.data off _

theorem slice_writeSlice_within {k n : ℕ} (h : k + n ≤ dat.length) :
    slice (f.writeSlice off dat).data (off + (unit32Size + k)) n = slice dat k n := by
  have hlen : (beBytes unit32Size dat.length).length = unit32Size := length_beBytes _ _
  refine (slice_patch_within 0 ?_).trans ?_
  · rw [← length_writeSlice]
    omega
  · conv_lhs => rw [← hlen]
    exact slice_append_right _ _ _ _

variable (f off dat) in
theorem length_data_writeSlice : f.data.length ≤ (f.writeSlice off dat).data.length := by
  rw [writeSlice, length_patch]
  exact Nat.le_max_left _ _

variable (f off dat) in
theorem length_disk_writeSlice : f.disk.length ≤ (f.writeSlice off dat).disk.length ∧
    off + unit32Size + dat.length ≤ (f.writeSlice off dat).disk.length := by
  rw [writeSlice, length_patch, ← length_writeSlice]
  omega

end Write

theorem getEntry_congr {g : FileWrap} {idx : ℕ}
    (h : slice f.data (idx * entrySize) entrySize = slice g.data (idx * entrySize) entrySize) :
    f.getEntry idx = g.getEntry idx := by
  have hfield : ∀ k, k + 8 ≤ entrySize → f.field idx k = g.field idx k := by
    intro k hk
    rw [field, field, ← slice_slice hk, h, slice_slice hk]
  rw [getEntry, getEntry, hfield 0 (by decide), hfield 8 (by decide), hfield 16 (by decide), hfield 24 (by decide)]

theorem getEntry_of_marshalEntry {idx : ℕ} {p : Placed} (hp : p.1.Fits) (hoff : p.2 < 2 ^ 64)
    (h : slice f.data (idx * entrySize) entrySize =
      marshalEntry p.1.term p.1.index (uint64 p.1.type.toInt) p.2) : f.getEntry idx = p.slot := by
  obtain ⟨hterm, hindex, htype, hoffset⟩ := slice_marshalEntry p.1.term p.1.index (uint64 p.1.type.toInt) p.2
  have hfield : ∀ k n, k + 8 ≤ entrySize → n < 2 ^ 64 →
      slice (marshalEntry p.1.term p.1.index (uint64 p.1.type.toInt) p.2) k 8 = beBytes 8 n →
      f.field idx k = n := by
    intro k n hk hn hs
    rw [field, ← slice_slice hk, h, hs]
    exact beNat_beBytes hn
  have htype_lt : uint64 p.1.type.toInt < 2 ^ 64 := by
    unfold uint64
    omega
  have hindex_lt := hp.index_lt
  rw [getEntry, Placed.slot, hfield 0 _ (by decide) hp.term_lt hterm,
    hfield 8 _ (by decide) (by omega) hindex, hfield 16 _ (by decide) htype_lt htype,
    hfield 24 _ (by decide) hoff hoffset]

/-! ### Adding an entry -/

section PutEntry

variable {idx off : ℕ} {e : Entry}

/-- A slot is in the part of the file that is there from the beginning. -/
theorem slot_le {i : ℕ} (hi : i < maxNumEntries) : i * entrySize + entrySize + unit32Size ≤ logFileOffset := by
  have hfits := slots_fit
  simp only [entrySize] at hfits ⊢
  omega

section

variable (hidx : idx < maxNumEntries)

include hidx

section

variable (hf : logFileOffset ≤ f.data.length)

include hf

theorem data_putEntry : (f.putEntry idx off e).data = patch 0 (f.writeSlice off e.data).data (idx * entrySize)
      (marshalEntry e.term e.index (uint64 e.type.toInt) off) := by
  refine data_writeAt ?_
  have hslot := slot_le hidx
  have hle := f.length_data_writeSlice off e.data
  rw [length_marshalEntry]
  omega

theorem getEntry_putEntry_of_ne (hoff : logFileOffset ≤ off) {i : ℕ} (hi : i < maxNumEntries) (hne : i ≠ idx) :
    (f.putEntry idx off e).getEntry i = f.getEntry i := by
  have hslot := slot_le hi
  have hlen := length_marshalEntry e.term e.index (uint64 e.type.toInt) off
  have hle := f.length_data_writeSlice off e.data
  have hsame : slice (f.writeSlice off e.data).data (i * entrySize) entrySize =
      slice f.data (i * entrySize) entrySize := slice_writeSlice_before (by omega) (by omega)
  refine getEntry_congr ?_
  rw [data_putEntry hidx hf, ← hsame]
  simp only [entrySize] at hlen hslot ⊢
  rcases lt_or_ge i idx with hlt | hge
  · exact slice_patch_before 0 (by omega) (by omega) _
  · exact slice_patch_after 0 (by omega) _

theorem getEntry_putEntry (he : e.Fits) (hoff : off < 2 ^ 64) :
    (f.putEntry idx off e).getEntry idx = Placed.slot (e, off) := by
  have hlen := length_marshalEntry e.term e.index (uint64 e.type.toInt) off
  refine getEntry_of_marshalEntry he hoff ?_
  rw [data_putEntry hidx hf]
  conv_lhs => rw [← hlen]
  exact slice_patch_self 0 _ _ _

theorem slice_putEntry {o : ℕ} (ho : logFileOffset ≤ o) (n : ℕ) :
    slice (f.putEntry idx off e).data o n = slice (f.writeSlice off e.data).data o n := by
  have hslot := slot_le hidx
  rw [data_putEntry hidx hf]
  refine slice_patch_after 0 ?_ n
  rw [length_marshalEntry]
  omega

end

end

variable (f idx off e) in
theorem length_disk_putEntry : f.disk.length ≤ (f.putEntry idx off e).disk.length ∧
    off + unit32Size + e.data.length ≤ (f.putEntry idx off e).disk.length := by
  have hle : (f.writeSlice off e.data).disk.length ≤ (f.putEntry idx off e).disk.length := by
    show _ ≤ (patch 0 (f.writeSlice off e.data).disk _ _).length
    rw [length_patch]
    exact Nat.le_max_left _ _
  have hdisk := f.length_disk_writeSlice off e.data
  omega

theorem disk_cut_putEntry (hf : f.disk <+: f.data) (hdisk : logFileOffset ≤ f.disk.length)
    (hidx : idx < maxNumEntries) (hoff : off ≤ f.disk.length) :
    (f.putEntry idx off e).disk <+: (f.putEntry idx off e).data := by
  have hle := hf.length_le
  have hslot := slot_le hidx
  have hdisk' := f.length_disk_writeSlice off e.data
  have hwrite : (f.writeSlice off e.data).disk <+: (f.writeSlice off e.data).data := patch_cut 0 hf hoff _
  rw [data_putEntry hidx (by omega)]
  exact patch_cut 0 hwrite (by omega) _

end PutEntry

/-! ### Clearing slots -/

/-- Write zeros, and their number, from slot `idx` on. -/
def clear (f : FileWrap) (idx m : ℕ) : FileWrap := f.writeSlice (idx * entrySize) (List.replicate m 0)

section Clear

variable {idx m : ℕ}

variable {o i k : ℕ}

theorem slice_clear_after (h : idx * entrySize + unit32Size + m ≤ o) (n : ℕ) :
    slice (f.clear idx m).data o n = slice f.data o n :=
  slice_writeSlice_after (by rwa [length_replicate]) n

theorem getEntry_clear_before (hi : i < idx) (hf : i * entrySize + entrySize ≤ f.data.length) :
    (f.clear idx m).getEntry i = f.getEntry i := by
  refine getEntry_congr (slice_writeSlice_before ?_ hf)
  simp only [entrySize]
  omega

theorem slice_clear {n : ℕ} (ho : idx * entrySize + unit32Size ≤ o) (hend : o + n ≤ idx * entrySize + unit32Size + m) :
    slice (f.clear idx m).data o n = replicate n 0 := by
  have hpos : o = idx * entrySize + (unit32Size + (o - idx * entrySize - unit32Size)) := by omega
  have hin : o - idx * entrySize - unit32Size + n ≤ m := by omega
  rw [hpos, clear, slice_writeSlice_within (by rwa [length_replicate]), slice_replicate 0 hin]

/-- A number of a slot is zero, unless it is behind what was written. -/
theorem field_clear (hi : idx ≤ i) (hk : unit32Size ≤ k)
    (hend : i * entrySize + k + 8 ≤ idx * entrySize + unit32Size + m) : (f.clear idx m).field i k = 0 := by
  have hstart : idx * entrySize + unit32Size ≤ i * entrySize + k := by
    simp only [entrySize] at *
    omega
  rw [field, slice_clear hstart hend, beNat_replicate_zero]

theorem field_clear_after (h : idx * entrySize + unit32Size + m ≤ i * entrySize + k) :
    (f.clear idx m).field i k = f.field i k := congrArg beNat (slice_clear_after h 8)

variable (m) in
theorem disk_clear (hf : f.disk <+: f.data) (hend : idx * entrySize ≤ f.disk.length) :
    f.disk.length ≤ (f.clear idx m).disk.length ∧ (f.clear idx m).disk <+: (f.clear idx m).data :=
  ⟨(length_disk_writeSlice _ _ _).1, patch_cut 0 hf hend _⟩

end Clear

/-! ### The operations on a file -/

namespace Stores

variable {ls : List Placed} (h : f.Stores ls)

theorem create : (openFile []).Stores [] := by
  have hdata : (openFile []).data = replicate logFileOffset 0 := rfl
  have hfits := slots_fit
  refine ⟨length_replicate.ge, prefix_rfl, Nat.zero_le _, by simp, ?_, by simp, by simp, by simp, .nil, by simp⟩
  intro i _ hi
  have hfield : ∀ k, k + 8 ≤ entrySize → (openFile []).field i k = 0 := by
    intro k hk
    simp only [entrySize] at hfits hk ⊢
    rw [field, hdata, slice_replicate 0 (by simp only [entrySize]; omega), beNat_replicate_zero]
  exact ⟨hfield 8 (by decide), hfield 24 (by decide)⟩

include h

theorem le_data : f.disk.length ≤ f.data.length := h.disk_cut.length_le

theorem le_offset {p : Placed} (hp : p ∈ ls) : logFileOffset ≤ p.2 := by
  cases ls with
  | nil => exact absurd hp not_mem_nil
  | cons q ls =>
    have hq := h.head q rfl
    rcases mem_cons.mp hp with rfl | hp
    · exact hq.ge
    · have hle := (pairwise_cons.mp h.ascending).1 p hp
      unfold Placed.dataEnd at hle
      omega

/-- The next data goes behind all there is, and not behind the end of the disk. -/
theorem nextOffset_bounds : logFileOffset ≤ nextOffset ls ∧ nextOffset ls ≤ f.disk.length ∧
    ∀ p ∈ ls, p.dataEnd ≤ nextOffset ls := by
  rcases eq_nil_or_concat' ls with rfl | ⟨init, last, rfl⟩
  · exact ⟨le_rfl, h.le_disk, by simp⟩
  · have hlast : last ∈ init ++ [last] := by simp
    have hoff := h.le_offset hlast
    rw [nextOffset_concat]
    refine ⟨by unfold Placed.dataEnd; omega, (h.dataEnd_le last hlast).1, fun p hp => ?_⟩
    rcases mem_append.mp hp with hp | hp
    · have hle := (pairwise_append.mp h.ascending).2.2 p hp last (by simp)
      unfold Placed.dataEnd at hle ⊢
      omega
    · rw [mem_singleton.mp hp]

/-- **Adding an entry.** -/
theorem putEntry (hcount : ls.length < maxNumEntries) {e : Entry} (he : e.Fits)
    (hroom : nextOffset ls + unit32Size + e.data.length ≤ maxLogFileSize) :
    (f.putEntry ls.length (nextOffset ls) e).Stores (ls ++ [(e, nextOffset ls)]) := by
  obtain ⟨hlow, hhigh, hbehind⟩ := h.nextOffset_bounds
  have hdisk := h.le_disk
  have hle := h.le_data
  have hdisk' := f.length_disk_putEntry ls.length (nextOffset ls) e
  have hother : ∀ i < maxNumEntries, i ≠ ls.length →
      (f.putEntry ls.length (nextOffset ls) e).getEntry i = f.getEntry i :=
    fun i hi hne => getEntry_putEntry_of_ne hcount (by omega) hlow hi hne
  refine ⟨by omega, disk_cut_putEntry h.disk_cut hdisk hcount hhigh, ?_, ?_, ?_, ?_, ?_, ?_, ?_, ?_⟩
  · rw [length_append, length_singleton]
    omega
  · intro i p hp
    rcases lt_or_ge i ls.length with hlt | hge
    · rw [getElem?_append_left hlt] at hp
      rw [hother i (by omega) (by omega), h.slot i p hp]
    · rw [getElem?_append_right hge] at hp
      obtain ⟨hi, rfl⟩ := List.getElem?_eq_some_iff.mp hp
      obtain rfl : i = ls.length := by
        rw [length_singleton] at hi
        omega
      have hlt : nextOffset ls < 2 ^ 64 := by
        unfold maxLogFileSize at hroom
        omega
      simpa using getEntry_putEntry hcount (by omega) he hlt
  · intro i hi hmax
    rw [length_append, length_singleton] at hi
    rw [hother i hmax (by omega)]
    exact h.empty i (by omega) hmax
  · exact forall_mem_append.mpr ⟨h.fits, forall_mem_singleton.mpr he⟩
  · intro p hp
    rcases mem_append.mp hp with hp | hp
    · have hend := hbehind p hp
      have hle' := (h.dataEnd_le p hp).1
      unfold Placed.dataEnd at hend hle'
      rw [slice_putEntry hcount (by omega) (h.le_offset hp), ← h.data p hp]
      exact slice_writeSlice_before (by omega) (by omega)
    · rw [mem_singleton.mp hp, slice_putEntry hcount (by omega) hlow]
      exact slice_writeSlice_self
  · refine forall_mem_append.mpr ⟨fun p hp => ?_, forall_mem_singleton.mpr ⟨hdisk'.2, hroom⟩⟩
    have hend := h.dataEnd_le p hp
    omega
  · refine pairwise_append.mpr ⟨h.ascending, pairwise_singleton _ _, fun p hp q hq => ?_⟩
    rw [mem_singleton.mp hq]
    exact hbehind p hp
  · intro p hp
    cases ls with
    | nil =>
      obtain rfl : (e, nextOffset []) = p := by simpa using hp
      rfl
    | cons q ls => exact h.head p hp

theorem slot_clear {k m i : ℕ} {p : Placed} (hp : (ls.take k)[i]? = some p) : (f.clear k m).getEntry i = p.slot := by
  rw [getElem?_take] at hp
  split_ifs at hp with hi
  have hmax := h.length_le
  have hlt := (List.getElem?_eq_some_iff.mp hp).1
  have hslot := slot_le (hlt.trans_le hmax)
  have hdisk := h.le_disk
  have hle := h.le_data
  rw [getEntry_clear_before hi (by omega), h.slot i p hp]

/-- The slots behind `k` are empty if those that are not cleared were. -/
theorem empty_clear {k m : ℕ} (hk : k ≤ ls.length) (hm : ∀ i < maxNumEntries,
      i * entrySize + entrySize ≤ k * entrySize + m ∨ ls.length ≤ i ∧ k * entrySize + m ≤ i * entrySize) :
    f.disk.length ≤ (f.clear k m).disk.length ∧ (f.clear k m).disk <+: (f.clear k m).data ∧
      ∀ i, k ≤ i → i < maxNumEntries →
        ((f.clear k m).getEntry i).index = 0 ∧ ((f.clear k m).getEntry i).offset = 0 := by
  have hmax := h.length_le
  have hfits := slots_fit
  have hdisk := h.le_disk
  have hstart : k * entrySize ≤ f.disk.length := by
    simp only [entrySize] at hfits ⊢
    omega
  obtain ⟨hdisk', hpre⟩ := disk_clear m h.disk_cut hstart
  refine ⟨hdisk', hpre, fun i hi hi' => ?_⟩
  have hzero : ∀ j, unit32Size ≤ j → j + 8 ≤ entrySize → (ls.length ≤ i → f.field i j = 0) →
      (f.clear k m).field i j = 0 := by
    intro j hj hj' hempty
    rcases hm i hi' with hin | ⟨hout, hafter⟩
    · exact field_clear hi hj (by omega)
    · rw [field_clear_after (by omega), hempty hout]
  exact ⟨hzero 8 (by decide) (by decide) fun hge => (h.empty i hge hi').1,
    hzero 24 (by decide) (by decide) fun hge => (h.empty i hge hi').2⟩

/-- **Clearing the slots from `k` on**, up to the last one that is used. -/
theorem clearTail {k : ℕ} (hk : k ≤ ls.length) :
    (f.clear k (entrySize * ls.length - entrySize * k)).Stores (ls.take k) := by
  have hmax := h.length_le
  have hfits := slots_fit
  have hend : k * entrySize + unit32Size + (entrySize * ls.length - entrySize * k) ≤ logFileOffset := by
    simp only [entrySize] at hfits ⊢
    omega
  obtain ⟨hdisk', hpre, hempty⟩ := h.empty_clear hk (m := entrySize * ls.length - entrySize * k) fun i _ => by
    simp only [entrySize]
    omega
  refine ⟨h.le_disk.trans hdisk', hpre, by rw [length_take]; omega, fun i p hp => h.slot_clear hp,
    fun i hi => hempty i (by rwa [length_take, min_eq_left hk] at hi),
    fun p hp => h.fits p (mem_of_mem_take hp), ?_, ?_, h.ascending.sublist (take_sublist k ls), ?_⟩
  · intro p hp
    have hp' := mem_of_mem_take hp
    have hoff := h.le_offset hp'
    rw [slice_clear_after (by omega), h.data p hp']
  · intro p hp
    have hle := h.dataEnd_le p (mem_of_mem_take hp)
    omega
  · intro p hp
    rw [head?_take] at hp
    split_ifs at hp
    exact h.head p hp

end Stores

end FileWrap

/-- The entries of a file whose slots have been cleared up to the data: the first one loses its data. -/
def cleared : List Placed → List Placed
  | [] => []
  | p :: ls => ({ p.1 with data := [] }, p.2) :: ls

theorem map_slot_cleared : (cleared ls).map Placed.slot = ls.map Placed.slot := by
  cases ls <;> rfl

theorem length_cleared : (cleared ls).length = ls.length := by
  cases ls <;> rfl

namespace FileWrap.Stores

variable {f : FileWrap} {ls : List Placed} (h : f.Stores ls)

include h

/-- **Clearing all slots from `k` on** of a file that stores something: the length of the first data is
cleared as well. -/
theorem clearAll {k : ℕ} (hk : k < ls.length) :
    (f.clear k (logFileOffset - entrySize * k)).Stores (cleared (ls.take k)) := by
  have hmax := h.length_le
  have hfits := slots_fit
  have hend : k * entrySize + unit32Size + (logFileOffset - entrySize * k) = logFileOffset + unit32Size := by
    simp only [entrySize] at hfits ⊢
    omega
  obtain ⟨hdisk', hpre, hempty⟩ := h.empty_clear hk.le (m := logFileOffset - entrySize * k) fun i hi => by
    simp only [entrySize] at hfits ⊢
    omega
  obtain ⟨first, rest, rfl⟩ := exists_cons_of_length_pos (Nat.zero_lt_of_lt hk)
  cases k with
  | zero =>
    exact ⟨h.le_disk.trans hdisk', hpre, Nat.zero_le _, by simp [cleared], hempty, by simp [cleared],
      by simp [cleared], by simp [cleared], .nil, by simp [cleared]⟩
  | succ k =>
    have hhead : first.2 = logFileOffset := h.head first rfl
    have hfit := h.fits first mem_cons_self
    have hlen := h.dataEnd_le first mem_cons_self
    obtain ⟨hbehind, hasc⟩ := pairwise_cons.mp h.ascending
    unfold Placed.dataEnd at hlen hbehind
    have hrest : ∀ p ∈ rest.take k, p ∈ first :: rest ∧ logFileOffset + unit32Size ≤ p.2 := by
      intro p hp
      have hle := hbehind p (mem_of_mem_take hp)
      exact ⟨mem_cons_of_mem _ (mem_of_mem_take hp), by omega⟩
    refine ⟨h.le_disk.trans hdisk', hpre, ?_, fun i p hp => ?_, fun i hi => hempty i ?_,
      forall_mem_cons.mpr ⟨⟨hfit.term_lt, hfit.index_pos, hfit.index_lt, ?_⟩, fun p hp => h.fits p (hrest p hp).1⟩,
      forall_mem_cons.mpr ⟨?_, fun p hp => ?_⟩, forall_mem_cons.mpr ⟨?_, fun p hp => ?_⟩,
      pairwise_cons.mpr ⟨fun p hp => ?_, hasc.sublist (take_sublist ..)⟩, fun p hp => ?_⟩
    · rw [length_cleared, length_take]
      omega
    · have hslot := congrArg (·[i]?) (map_slot_cleared ((first :: rest).take (k + 1)))
      simp only [getElem?_map, hp] at hslot
      obtain ⟨q, hq, hqp⟩ := Option.map_eq_some_iff.mp hslot.symm
      rw [h.slot_clear hq, hqp]
    · rwa [length_cleared, length_take, min_eq_left hk.le] at hi
    · have := hfit.data_le
      rw [length_nil]
      omega
    · -- the first data is now empty
      have hbytes : beBytes unit32Size 0 ++ [] = replicate unit32Size 0 := by decide
      show slice _ first.2 unit32Size = beBytes unit32Size 0 ++ []
      refine slice_clear ?_ (by omega)
      simp only [entrySize] at hfits hend ⊢
      omega
    · have hoff := (hrest p hp).2
      rw [slice_clear_after (by omega), h.data p (hrest p hp).1]
    · simp only [Placed.dataEnd, length_nil]
      omega
    · have := h.dataEnd_le p (hrest p hp).1
      omega
    · have := (hrest p hp).2
      simp only [Placed.dataEnd, length_nil]
      omega
    · cases hp
      exact hhead

/-- **Cutting the disk** behind the data. -/
theorem truncate : (f.truncate (nextOffset ls)).Stores ls := by
  obtain ⟨hlow, hhigh, hbehind⟩ := h.nextOffset_bounds
  have hdisk : (f.truncate (nextOffset ls)).disk = f.disk.take (nextOffset ls) := by
    rw [FileWrap.truncate, Nat.sub_eq_zero_of_le hhigh]
    exact append_nil _
  have hlen : (f.truncate (nextOffset ls)).disk.length = nextOffset ls := by
    rw [hdisk, length_take_of_le hhigh]
  refine ⟨by omega, ?_, h.length_le, h.slot, h.empty, h.fits, h.data, fun p hp => ?_, h.ascending, h.head⟩
  · rw [hdisk]
    exact ( take_prefix _ _).trans h.disk_cut
  · have := hbehind p hp
    have := (h.dataEnd_le p hp).2
    omega

/-- **Opening the file again.** -/
theorem reopen : f.reopen.Stores ls := by
  have hpos : 0 < logFileOffset := by decide
  have hdisk := h.le_disk
  have hopen : f.reopen = ⟨f.disk, f.disk⟩ := by
    refine if_neg fun hnil => ?_
    rw [hnil, length_nil] at hdisk
    omega
  have hentry : ∀ i < maxNumEntries, f.reopen.getEntry i = f.getEntry i := by
    intro i hi
    have hslot := slot_le hi
    rw [hopen]
    exact getEntry_congr (slice_eq_of_cut h.disk_cut (by omega))
  have hlen := h.length_le
  refine ⟨by rwa [hopen], by rw [hopen], hlen, fun i p hp => ?_, fun i hi hi' => ?_, h.fits, fun p hp => ?_,
    by rw [hopen]; exact h.dataEnd_le, h.ascending, h.head⟩
  · have hlt := (List.getElem?_eq_some_iff.mp hp).1
    rw [hentry i (by omega), h.slot i p hp]
  · rw [hentry i hi']
    exact h.empty i hi hi'
  · have hend := (h.dataEnd_le p hp).1
    unfold Placed.dataEnd at hend
    rw [hopen, ← h.data p hp]
    exact slice_eq_of_cut h.disk_cut (by omega)

/-! ### What is read -/

variable {i : ℕ} {p : Placed}

theorem readSlice (hp : p ∈ ls) : f.sliceLength p.2 = some p.1.data.length ∧ f.readSlice p.2 = some p.1.data := by
  obtain ⟨hend, hmax⟩ := h.dataEnd_le p hp
  have hle := h.le_data
  have hdata := h.data p hp
  unfold Placed.dataEnd at hend hmax
  have hlen : p.1.data.length < 256 ^ unit32Size := by
    simp only [unit32Size, maxLogFileSize] at hmax ⊢
    omega
  have hhead : (beBytes unit32Size p.1.data.length).length = unit32Size := length_beBytes _ _
  have hheader : slice f.data (p.2 + 0) unit32Size = beBytes unit32Size p.1.data.length := by
    have hself := slice_zero_length (beBytes unit32Size p.1.data.length)
    rw [hhead] at hself
    rw [← slice_slice (by omega : 0 + unit32Size ≤ unit32Size + p.1.data.length), hdata, Placed.bytes,
      slice_append_left (by omega), hself]
  have hbody : slice f.data (p.2 + unit32Size) p.1.data.length = p.1.data := by
    have hright := slice_append_right (beBytes unit32Size p.1.data.length) p.1.data 0 p.1.data.length
    rw [slice_zero_length] at hright
    rw [← slice_slice le_rfl, hdata]
    exact hright
  have hlength : f.sliceLength p.2 = some p.1.data.length := by
    rw [sliceLength, if_pos (by omega), ← Nat.add_zero p.2, hheader, beNat_beBytes hlen]
  refine ⟨hlength, ?_⟩
  rw [FileWrap.readSlice, hlength, Option.map_some, if_neg (by omega), hbody]

theorem getRaftEntry (hp : ls[i]? = some p) : f.getRaftEntry i = some p.1 := by
  have hmem := mem_of_getElem? hp
  have hoff := h.le_offset hmem
  have hpos : 0 < logFileOffset := by decide
  have hend := (h.dataEnd_le p hmem).1
  have hle := h.le_data
  unfold Placed.dataEnd at hend
  have hunit : 0 < unit32Size := by decide
  have hslot : (f.getEntry i).offset = p.2 := by rw [h.slot i p hp]; rfl
  rw [FileWrap.getRaftEntry]
  simp only [hslot]
  rw [if_pos (by omega), if_neg (by omega), (h.readSlice hmem).2, h.slot i p hp]
  simp only [Placed.slot, ofNat_uint64_toInt, Option.map_some]

theorem getRaftEntry_empty (hi : ls.length ≤ i) (hi' : i < maxNumEntries) :
    ∃ e, f.getRaftEntry i = some e ∧ e.index = 0 := by
  obtain ⟨hindex, hoffset⟩ := h.empty i hi hi'
  refine ⟨_, if_neg ?_, hindex⟩
  rw [hoffset]
  exact lt_irrefl 0

theorem sliceSize (hp : p ∈ ls) : f.sliceSize p.2 = some (unit32Size + p.1.data.length) := by
  rw [FileWrap.sliceSize, (h.readSlice hp).1, Option.map_some]

theorem index_getEntry (hi : i < maxNumEntries) : (f.getEntry i).index = (ls[i]?.map fun p => p.1.index).getD 0 := by
  cases hp : ls[i]? with
  | none => exact (h.empty i (getElem?_eq_none_iff.mp hp) hi).1
  | some p =>
    rw [h.slot i p hp]
    rfl

theorem firstIndex : f.firstIndex = firstOf (ls.map Prod.fst) := by
  rw [FileWrap.firstIndex, h.index_getEntry (by decide), firstOf, head?_map, ← head?_eq_getElem?, Option.map_map]
  rfl

theorem firstEmptySlot : f.firstEmptySlot = ls.length := by
  have hlen := h.length_le
  refine sortSearch_eq hlen (fun k hk => ?_) fun k hk hk' => ?_
  · have hpos := (h.fits ls[k] (getElem_mem hk)).index_pos
    rw [h.index_getEntry (by omega), getElem?_eq_getElem hk]
    simpa using hpos.ne'
  · rw [(h.empty k hk hk').1]
    rfl

/-- **The slot of an index.** -/
theorem slotGe (hc : Consecutive (ls.map Prod.fst)) (raftIndex : ℕ) :
    f.slotGe raftIndex = if ls = [] ∨ raftIndex < firstOf (ls.map Prod.fst) then none
      else some (min (raftIndex - firstOf (ls.map Prod.fst)) ls.length) := by
  have hlen := h.length_le
  have hfirst := h.firstIndex
  by_cases hnil : ls = []
  · rw [FileWrap.slotGe]
    simp only [hfirst, hnil]
    rfl
  · have hpos : 0 < ls.length := length_pos_iff.mpr hnil
    have hindex : ∀ i hi, ls[i].1.index = firstOf (ls.map Prod.fst) + i := by
      intro i hi
      have := hc.index_getElem (by rwa [length_map])
      rwa [getElem_map] at this
    have hentry : ∀ i, i < ls.length → (f.getEntry i).index = firstOf (ls.map Prod.fst) + i := by
      intro i hi
      rw [h.index_getEntry (by omega), getElem?_eq_getElem hi, ← hindex i hi]
      rfl
    have hne : firstOf (ls.map Prod.fst) ≠ 0 := by
      have hfit := (h.fits ls[0] (getElem_mem hpos)).index_pos
      rw [hindex 0 hpos] at hfit
      omega
    rw [FileWrap.slotGe]
    simp only [hfirst, hnil, hne]
    split_ifs with hlt hat
    · rfl
    · -- the slot at the distance from the first index
      rcases lt_or_ge (raftIndex - firstOf (ls.map Prod.fst)) ls.length with hin | hout
      · rw [min_eq_left hin.le]
      · rw [(h.empty _ hout hat.1).1] at hat
        omega
    · have hout : ls.length ≤ raftIndex - firstOf (ls.map Prod.fst) := by
        by_contra hin
        refine hat ⟨by omega, ?_⟩
        rw [hentry _ (by omega)]
        omega
      rw [min_eq_right hout]
      congr 1
      refine sortSearch_eq hlen (fun k hk => ?_) fun k hk hk' => ?_
      · rw [hentry k hk]
        simp only [decide_eq_false_iff_not]
        omega
      · simp [(h.empty k hk hk').1]

end FileWrap.Stores

end GeminiTS.Raft
