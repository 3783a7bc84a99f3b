import GeminiTS.Lib.RoundRobin
import GeminiTS.Lib.StableSort
import GeminiTS.Wal.ReplayFile

/-!
# Partition — the log files of one partition

`LogWriter` of `engine/log_writer.go` with the directory it writes to, and the replay of the directory
(`restoreLog`, `replayOnePartition` of `engine/wal.go`). A file is known by its sequence number.
-/

namespace GeminiTS.Wal

open Lib List

def defaultFileSize : ℕ := 10 * 1024 * 1024

/-- The writer of a partition; `currentFileSize` is that of the open file, which is the one of
`fileSeq`. -/
structure LogWriter where
  fileSeq : ℕ
  fileNames : List ℕ
  currentFileSize : Option ℕ

/-- A partition: its writer, its directory, and the files its switches have returned and that have not
been removed. -/
structure Partition where
  writer : LogWriter
  files : List (ℕ × Bytes)
  returned : List (List ℕ)

namespace Partition

/-- A partition with an empty directory. -/
def empty : Partition := ⟨⟨0, [], none⟩, [], []⟩

/-- Open a new file if there is none open or the open one is full. -/
def trySwitchFile (p : Partition) : Partition :=
  if p.writer.currentFileSize.all (· > defaultFileSize) then
    { p with
      writer := ⟨p.writer.fileSeq + 1, p.writer.fileNames ++ [p.writer.fileSeq + 1], some 0⟩
      files := p.files ++ [(p.writer.fileSeq + 1, [])] }
  else p

/-- Append to the open file. -/
def append (p : Partition) (buf : Bytes) : Partition := { p with
    writer := { p.writer with currentFileSize := p.writer.currentFileSize.map (· + buf.length) }
    files := p.files.map fun f => if f.1 = p.writer.fileSeq then (f.1, f.2 ++ buf) else f }

def write (p : Partition) (buf : Bytes) : Partition := p.trySwitchFile.append buf

/-- Close the open file, unless nothing was written to it, and return the files written so far. -/
def switch (p : Partition) : Partition := { p with
    writer := ⟨p.writer.fileSeq, [],
      if p.writer.currentFileSize = some 0 then some 0 else none⟩
    returned := p.returned ++ [p.writer.fileNames] }

/-- Remove the files the earliest switch has returned. -/
def remove (p : Partition) : Partition :=
  match p.returned with
  | [] => p
  | names :: rest => { p with files := p.files.filter fun f => f.1 ∉ names, returned := rest }

variable {R : Type*} (cd : Codec R)

/-- The files from old to new, each replayed with the buffer it is given. -/
def replay (mem : ℕ → Bytes) (p : Partition) : List (WalRecord R) :=
  (stableSort Prod.fst p.files).flatMap fun f => replayWalFile cd f.2 (mem f.1)

end Partition

/-! ### What a partition holds -/

variable {R : Type*} {cd : Codec R}

/-- A file with its records. -/
abbrev LogFile (cd : Codec R) := ℕ × List (LogRecord cd)

/-- A file as it is in the directory. -/
def LogFile.stored (f : LogFile cd) : ℕ × Bytes := (f.1, fileBytes f.2)

/-- The files of the switches whose files were not removed, and those written since. -/
structure Held (cd : Codec R) where
  switched : List (List (LogFile cd))
  current : List (LogFile cd)

namespace Held

def all (h : Held cd) : List (LogFile cd) := h.switched.flatten ++ h.current

/-- The records of each switch. -/
def segments (h : Held cd) : List (List (LogRecord cd)) := h.switched.map fun fs => fs.flatMap Prod.snd

/-- The records since the last switch. -/
def last (h : Held cd) : List (LogRecord cd) := h.current.flatMap Prod.snd

end Held

/-- The partition holds the files. -/
structure Partition.Holds (p : Partition) (h : Held cd) : Prop where
  files : p.files = h.all.map LogFile.stored
  fileNames : p.writer.fileNames = h.current.map Prod.fst
  returned : p.returned = h.switched.map (map Prod.fst)
  ascending : (h.all.map Prod.fst).Pairwise (· < ·)
  le_fileSeq : ∀ f ∈ h.all, f.1 ≤ p.writer.fileSeq
  /-- An open file is not empty, and it is the last one. -/
  current : ∀ size, p.writer.currentFileSize = some size →
    size ≠ 0 ∧ ∃ before rs, h.current = before ++ [(p.writer.fileSeq, rs)]

namespace Partition.Holds

variable {p : Partition} {h : Held cd} (hp : p.Holds h)

theorem empty : Partition.empty.Holds (⟨[], []⟩ : Held cd) where
  files := rfl
  fileNames := rfl
  returned := rfl
  ascending := .nil
  le_fileSeq f hf := absurd hf not_mem_nil
  current size hsize := absurd hsize (by simp [Partition.empty])

include hp

theorem replay (mem : ℕ → Bytes) : p.replay cd mem = (h.segments.flatten ++ h.last).map LogRecord.delivered := by
  have hsorted : stableSort Prod.fst p.files = p.files := by
    refine stableSort_eq (List.Perm.refl _) ?_
    rw [hp.files, pairwise_map]
    exact pairwise_map.mp hp.ascending
  have hfile : ∀ f : LogFile cd, replayWalFile cd f.stored.2 (mem f.stored.1) =
      f.2.map LogRecord.delivered := fun f => replayWalFile_fileBytes f.2 _
  have hrecords : h.segments.flatten ++ h.last = h.all.flatMap Prod.snd := by
    rw [Held.all, flatMap_append, Held.segments, flatten_eq_flatMap, flatMap_map, flatten_eq_flatMap, flatMap_assoc]
    rfl
  rw [Partition.replay, hsorted, hp.files, flatMap_map, hrecords, map_flatMap]
  exact flatMap_congr fun f _ => hfile f

omit hp in
theorem map_append_last {files : List (ℕ × Bytes)} {seq : ℕ} (hne : ∀ f ∈ files, f.1 ≠ seq) (old buf : Bytes) :
    (files ++ [(seq, old)]).map (fun f => if f.1 = seq then (f.1, f.2 ++ buf) else f) =
      files ++ [(seq, old ++ buf)] := by
  rw [map_append, map_congr_left fun f hf => if_neg (hne f hf)]
  simp

variable (r : LogRecord cd)

theorem write_new (hnew : p.writer.currentFileSize.all (· > defaultFileSize) = true) :
    (p.write r.bytes).Holds ⟨h.switched, h.current ++ [(p.writer.fileSeq + 1, [r])]⟩ := by
  have hswitch : p.trySwitchFile = ⟨⟨p.writer.fileSeq + 1, p.writer.fileNames ++ [p.writer.fileSeq + 1], some 0⟩,
      p.files ++ [(p.writer.fileSeq + 1, [])], p.returned⟩ := if_pos hnew
  have hall : Held.all ⟨h.switched, h.current ++ [(p.writer.fileSeq + 1, [r])]⟩ =
      h.all ++ [(p.writer.fileSeq + 1, [r])] := by
    rw [Held.all, Held.all, append_assoc]
  have hlt : ∀ f ∈ h.all, f.1 < p.writer.fileSeq + 1 := fun f hf => Nat.lt_succ_of_le (hp.le_fileSeq f hf)
  have hlen : (r.bytes).length ≠ 0 := by
    rw [r.length_bytes]
    unfold walRecordHeadSize
    omega
  rw [Partition.write, hswitch]
  refine ⟨?_, ?_, hp.returned, ?_, ?_, ?_⟩
  · have hne : ∀ f ∈ p.files, f.1 ≠ p.writer.fileSeq + 1 := by
      intro f hf
      rw [hp.files] at hf
      obtain ⟨f', hf', rfl⟩ := mem_map.mp hf
      exact Nat.ne_of_lt (hlt f' hf')
    show (p.files ++ [(p.writer.fileSeq + 1, [])]).map _ = _
    rw [map_append_last hne, hall, hp.files]
    simp [LogFile.stored, fileBytes]
  · show p.writer.fileNames ++ [p.writer.fileSeq + 1] = _
    rw [hp.fileNames, map_append]
    rfl
  · rw [hall, map_append, pairwise_append]
    refine ⟨hp.ascending, pairwise_singleton _ _, ?_⟩
    intro a ha b hb
    obtain ⟨f, hf, rfl⟩ := mem_map.mp ha
    obtain rfl := mem_singleton.mp hb
    exact hlt f hf
  · intro f hf
    rw [hall] at hf
    rcases mem_append.mp hf with hf | hf
    · exact (hlt f hf).le
    · rw [mem_singleton.mp hf]
      exact le_rfl
  · intro size hsize
    refine ⟨?_, h.current, [r], rfl⟩
    have : 0 + r.bytes.length = size := Option.some.inj hsize
    omega

theorem write_open (hold : ¬ p.writer.currentFileSize.all (· > defaultFileSize) = true) :
    ∃ before rs, h.current = before ++ [(p.writer.fileSeq, rs)] ∧
      (p.write r.bytes).Holds ⟨h.switched, before ++ [(p.writer.fileSeq, rs ++ [r])]⟩ := by
  have hswitch : p.trySwitchFile = p := if_neg hold
  obtain ⟨size, hsize⟩ : ∃ size, p.writer.currentFileSize = some size := by
    cases hc : p.writer.currentFileSize with
    | none => exact absurd (by rw [hc]; rfl) hold
    | some size => exact ⟨size, rfl⟩
  obtain ⟨hpos, before, rs, hcur⟩ := hp.current size hsize
  have hall : h.all = (h.switched.flatten ++ before) ++ [(p.writer.fileSeq, rs)] := by
    rw [Held.all, hcur, append_assoc]
  have hall' : Held.all ⟨h.switched, before ++ [(p.writer.fileSeq, rs ++ [r])]⟩ =
      (h.switched.flatten ++ before) ++ [(p.writer.fileSeq, rs ++ [r])] := by
    rw [Held.all, append_assoc]
  have hnames : (Held.all ⟨h.switched, before ++ [(p.writer.fileSeq, rs ++ [r])]⟩).map Prod.fst =
      h.all.map Prod.fst := by
    simp only [hall, hall', map_append, map_cons]
  have hlt : ∀ f ∈ h.switched.flatten ++ before, f.1 < p.writer.fileSeq := by
    intro f hf
    have hasc := hp.ascending
    rw [hall, map_append, pairwise_append] at hasc
    exact hasc.2.2 f.1 (mem_map_of_mem hf) p.writer.fileSeq (by simp)
  refine ⟨before, rs, hcur, ?_⟩
  rw [Partition.write, hswitch]
  refine ⟨?_, ?_, hp.returned, hnames ▸ hp.ascending, ?_, ?_⟩
  · have hne : ∀ f ∈ (h.switched.flatten ++ before).map LogFile.stored, f.1 ≠ p.writer.fileSeq := by
      intro f hf
      obtain ⟨f', hf', rfl⟩ := mem_map.mp hf
      exact Nat.ne_of_lt (hlt f' hf')
    have hlast : [(p.writer.fileSeq, rs)].map LogFile.stored = [(p.writer.fileSeq, fileBytes rs)] := rfl
    show p.files.map _ = _
    rw [hp.files, hall, hall', map_append, hlast, map_append_last hne]
    simp [LogFile.stored, fileBytes]
  · show p.writer.fileNames = _
    rw [hp.fileNames, hcur, map_append, map_append]
    rfl
  · intro f hf
    have hmem : f.1 ∈ h.all.map Prod.fst := hnames ▸ mem_map_of_mem hf
    obtain ⟨f', hf', heq⟩ := mem_map.mp hmem
    exact heq ▸ hp.le_fileSeq f' hf'
  · intro size' hsize'
    refine ⟨?_, before, rs ++ [r], rfl⟩
    have : p.writer.currentFileSize.map (· + r.bytes.length) = some size' := hsize'
    rw [hsize] at this
    have hsum : size + r.bytes.length = size' := Option.some.inj this
    omega

/-- **A write** adds a record to those since the last switch. -/
theorem write : ∃ h', (p.write r.bytes).Holds h' ∧ h'.segments = h.segments ∧ h'.last = h.last ++ [r] := by
  by_cases hnew : p.writer.currentFileSize.all (· > defaultFileSize) = true
  · refine ⟨_, hp.write_new r hnew, rfl, ?_⟩
    rw [Held.last, Held.last]
    simp
  · obtain ⟨before, rs, hcur, hp'⟩ := hp.write_open r hnew
    refine ⟨_, hp', rfl, ?_⟩
    rw [Held.last, Held.last, hcur]
    simp

/-- **A switch** ends the segment. -/
theorem switch : p.switch.Holds ⟨h.switched ++ [h.current], []⟩ := by
  have hall : Held.all ⟨h.switched ++ [h.current], []⟩ = h.all := by
    simp [Held.all]
  have hclosed : p.switch.writer.currentFileSize = none := by
    refine if_neg fun h0 => ?_
    exact (hp.current 0 h0).1 rfl
  refine ⟨hall ▸ hp.files, rfl, ?_, hall ▸ hp.ascending, hall ▸ hp.le_fileSeq, ?_⟩
  · show p.returned ++ [p.writer.fileNames] = _
    rw [hp.returned, hp.fileNames, map_append]
    rfl
  · intro size hsize
    rw [hclosed] at hsize
    cases hsize

/-- **A removal** drops the first segment. -/
theorem remove : p.remove.Holds ⟨h.switched.tail, h.current⟩ := by
  cases hsw : h.switched with
  | nil =>
    have hnil : p.returned = [] := by rw [hp.returned, hsw, map_nil]
    have hp' : p.remove = p := by rw [Partition.remove, hnil]
    rw [hp', tail_nil, ← hsw]
    exact hp
  | cons fs rest =>
    have hret : p.returned = fs.map Prod.fst :: rest.map (map Prod.fst) := by
      rw [hp.returned, hsw, map_cons]
    have hp' : p.remove = { p with files := p.files.filter fun f => f.1 ∉ fs.map Prod.fst,
                                   returned := rest.map (map Prod.fst) } := by
      rw [Partition.remove, hret]
    have hall : h.all = fs ++ (rest.flatten ++ h.current) := by
      rw [Held.all, hsw, flatten_cons, append_assoc]
    have hasc := hp.ascending
    rw [hall, map_append, pairwise_append] at hasc
    -- the later files have greater numbers, so none of them is removed
    have hkeep : ∀ f ∈ rest.flatten ++ h.current, f.1 ∉ fs.map Prod.fst := fun f hf hmem =>
      lt_irrefl _ (hasc.2.2 f.1 hmem f.1 (mem_map_of_mem hf))
    rw [hp']
    refine ⟨?_, hp.fileNames, rfl, hasc.2.1, ?_, hp.current⟩
    · show p.files.filter _ = (rest.flatten ++ h.current).map LogFile.stored
      rw [hp.files, hall, map_append, filter_append, filter_eq_nil_iff.mpr, filter_eq_self.mpr, nil_append]
      · intro f hf
        obtain ⟨f', hf', rfl⟩ := mem_map.mp hf
        exact decide_eq_true (hkeep f' hf')
      · intro f hf
        obtain ⟨f', hf', rfl⟩ := mem_map.mp hf
        simpa using ⟨f'.2, hf'⟩
    · intro f hf
      exact hp.le_fileSeq f (hall ▸ mem_append_right _ hf)

end Partition.Holds

end GeminiTS.Wal
