import GeminiTS.Lib.Machine
import GeminiTS.Raft.EntryLogSpec

/-!
# EntryLogRun — the raft log as a list with truncating append

* `LogRun.refines_iff` — the log behaves as the list exactly as long as no batch overwrites the middle of a
  full file whose first entry has data; `cutInFullFile_loses_data` is a run that loses some.
-/

namespace GeminiTS.Raft

open Lib List

/-- Keep the entries below the batch and add the batch. -/
def appendRef (es batch : List Entry) : List Entry :=
  if batch = [] then es else (es.filter fun e => e.index < firstOf batch) ++ batch

/-- An entry without its data. -/
def Entry.bare (e : Entry) : Entry := { e with data := [] }

/-! ### What removing leaves -/

/-- The first data is empty already. -/
def headSpared (ls : List Placed) : Prop := ∀ p, ls.head? = some p → p.1.data = []

theorem map_bare_cleared (ls : List Placed) :
    ((cleared ls).map Prod.fst).map Entry.bare = (ls.map Prod.fst).map Entry.bare := by
  cases ls <;> rfl

theorem map_fst_cleared_iff (ls : List Placed) : (cleared ls).map Prod.fst = ls.map Prod.fst ↔ headSpared ls := by
  cases ls with
  | nil => simp [cleared, headSpared]
  | cons p ls =>
    have hiff : ({ p.1 with data := [] }) = p.1 ↔ p.1.data = [] := by
      constructor
      · intro h
        rw [← h]
      · intro h
        rw [← h]
    simp only [cleared, map_cons, cons.injEq, and_true, headSpared, head?_cons, Option.some.injEq, forall_eq']
    exact hiff

namespace Files

variable {fl : Files} {raftIndex : ℕ} {loc : Option ℕ × Option ℕ}

/-- The first data of the full file that is cut behind its first entry. -/
def Spared (fl : Files) : Option ℕ × Option ℕ → Prop
  | (some i, some k) => headSpared ((fl.rotated[i]?.getD []).take k)
  | _ => True

section

variable (h : fl.Located raftIndex loc) (hle : fl.entries = [] ∨ firstOf fl.entries ≤ raftIndex)

include h hle

/-- **What removing leaves**: the entries below the index, apart from data that is lost. -/
theorem Located.entries_removed :
    (fl.removed loc).entries.map Entry.bare = (fl.entries.take (raftIndex - firstOf fl.entries)).map Entry.bare ∧
      ((fl.removed loc).entries = fl.entries.take (raftIndex - firstOf fl.entries) ↔ fl.Spared loc) := by
  cases h with
  | below fidx _ hbelow =>
    have hnil : fl.entries = [] := by
      by_contra hne
      have := hbelow.resolve_left hne
      have := hle.resolve_left hne
      omega
    have hremoved : fl.removed (fidx, none) = fl := by cases fidx <;> rfl
    have hspared : fl.Spared (fidx, none) := by cases fidx <;> trivial
    rw [hremoved, hnil, take_nil]
    exact ⟨rfl, iff_of_true rfl hspared⟩
  | current hne hle' =>
    obtain ⟨a, ha⟩ : ∃ a, raftIndex = firstOf fl.entries + (fl.rotated.flatten.length + a) :=
      ⟨raftIndex - (firstOf fl.entries + fl.rotated.flatten.length), by omega⟩
    have hoff : raftIndex - (firstOf fl.entries + fl.rotated.flatten.length) = a := by omega
    have htake : fl.last.take (min a fl.last.length) = fl.last.take a := by
      rw [← take_take, take_length]
    have hkept : (⟨fl.rotated, fl.last.take a⟩ : Files).entries = fl.entries.take (raftIndex - firstOf fl.entries) := by
      rw [ha, Nat.add_sub_cancel_left, entries, entries, ← map_take, placed, placed, take_length_add_append]
    rw [removed, hoff, htake, hkept]
    exact ⟨rfl, iff_of_true rfl trivial⟩
  | @rotated i ls hi hle' hlt =>
    obtain ⟨k, hk⟩ : ∃ k, raftIndex = firstOf fl.entries + (fl.before i + k) :=
      ⟨raftIndex - (firstOf fl.entries + fl.before i), by omega⟩
    have hoff : raftIndex - (firstOf fl.entries + fl.before i) = k := by omega
    have hkept : fl.entries.take (raftIndex - firstOf fl.entries) =
        (fl.rotated.take i).flatten.map Prod.fst ++ (ls.take k).map Prod.fst := by
      rw [hk, Nat.add_sub_cancel_left, entries, ← map_take, placed_split hi, append_assoc, before,
        take_length_add_append, take_append_of_le_length (by omega), map_append]
    have hremoved : (fl.removed (some i, some k)).entries =
        (fl.rotated.take i).flatten.map Prod.fst ++ (cleared (ls.take k)).map Prod.fst := by
      rw [removed, hi, Option.getD_some, entries, placed, map_append]
    rw [hoff, hremoved, hkept]
    constructor
    · rw [map_append, map_append, map_bare_cleared]
    · rw [append_cancel_left_eq, map_fst_cleared_iff, Spared, hi, Option.getD_some]

theorem Located.index_removed :
    (fl.removed loc).entries.map Entry.index = (fl.entries.take (raftIndex - firstOf fl.entries)).map Entry.index := by
  have hbare := congrArg (map Entry.index) (h.entries_removed hle).1
  rwa [map_map, map_map] at hbare

end

end Files

/-! ### A batch -/

/-- A batch that may be added to the entries. -/
structure Follows (es batch : List Entry) : Prop where
  fits : ∀ e ∈ batch, e.Fits
  consecutive : Consecutive batch
  bounds : es ≠ [] → batch ≠ [] → firstOf es ≤ firstOf batch ∧ firstOf batch ≤ lastOf es + 1

theorem Follows.consecutive_take {es batch : List Entry} (h : Follows es batch) (hes : Consecutive es)
    (hne : batch ≠ []) : Consecutive (es.take (firstOf batch - firstOf es) ++ batch) := by
  have htake : Consecutive (es.take (firstOf batch - firstOf es)) := by
    rw [← take_append_drop (firstOf batch - firstOf es) es] at hes
    exact (consecutive_append.mp hes).1
  refine consecutive_append.mpr ⟨htake, h.consecutive, fun hkept _ => ?_⟩
  have hnil : es ≠ [] := by
    rintro rfl
    exact hkept take_nil
  obtain ⟨hlow, hhigh⟩ := h.bounds hnil hne
  have hfirst : firstOf (es.take (firstOf batch - firstOf es)) = firstOf es := by
    refine firstOf_take (Nat.pos_of_ne_zero fun hzero => hkept ?_)
    rw [hzero, take_zero]
  rw [hes.lastOf_eq hnil] at hhigh
  have hpos := length_pos_iff.mpr hnil
  rw [length_take]
  omega

namespace EntryLog.Holds

variable {l : EntryLog} {fl : Files} (h : l.Holds fl) (hp : fl.Proper)

include h hp

/-- **Adding a batch.** -/
theorem addEntries {batch : List Entry} (hbatch : Follows fl.entries batch) (hne : batch ≠ []) :
    ∃ l' fl', l.addEntries batch = some l' ∧ l'.Holds fl' ∧ fl'.Proper ∧
      fl'.entries = (fl.removed (l.slotGe (firstOf batch))).entries ++ batch := by
  obtain ⟨re, res, rfl⟩ := exists_cons_of_ne_nil hne
  have hfirst : firstOf (re :: res) = re.index := rfl
  have hle : fl.entries = [] ∨ firstOf fl.entries ≤ re.index := or_iff_not_imp_left.mpr fun h => (hbatch.bounds h hne).1
  obtain ⟨l₁, hl₁, h₁⟩ := h.removeFrom hp re.index
  have hindex := (h.slotGe hp re.index).index_removed hle
  have hcons : Consecutive ((fl.removed (l.slotGe re.index)).entries ++ (re :: res)) := by
    refine (hbatch.consecutive_take h.consecutive hne).congr ?_
    rw [map_append, map_append, hindex, hfirst]
  obtain ⟨fl2, h2, hentries, hlast⟩ := h₁.writeAll hbatch.fits hcons
  refine ⟨_, fl2, ?_, h2, fun _ => hlast (.inr hne), hentries⟩
  rw [EntryLog.addEntries, hl₁]
  simp only [Option.bind_eq_bind, Option.bind_some, h₁.startOffset]
  rfl

end EntryLog.Holds

/-! ### Operations and runs -/

/-- What the log is asked to do. -/
inductive LogOp
  | addEntries (batch : List Entry)
  | deleteBefore (raftIndex : ℕ)
  | reopen

/-- What an operation does to the entries. -/
def LogOp.RefStep (es : List Entry) : LogOp → List Entry → Prop
  | addEntries batch, es' => es' = appendRef es batch
  | deleteBefore raftIndex, es' => ∃ dropped, es = dropped ++ es' ∧ ∀ e ∈ dropped, e.index < raftIndex
  | reopen, es' => es' = es

namespace EntryLog

def exec (l : EntryLog) : LogOp → Option EntryLog
  | .addEntries batch => l.addEntries batch
  | .deleteBefore raftIndex => some (l.deleteBefore raftIndex)
  | .reopen => some (openEntryLogs l.dir)

/-- A batch starts between the first index and the one after the last; it may start anywhere if the log is
empty. -/
def Accepts (l : EntryLog) : LogOp → Prop
  | .addEntries batch => (∀ e ∈ batch, e.Fits) ∧ Consecutive batch ∧
      (l.lastIndex ≠ 0 → batch ≠ [] → l.firstIndex ≤ firstOf batch ∧ firstOf batch ≤ l.lastIndex + 1)
  | _ => True

/-- The log reads as the list of entries. -/
structure Agrees (size : Entry → ℕ) (l : EntryLog) (es : List Entry) : Prop where
  allEntries : l.allEntries size l.firstIndex (l.lastIndex + 1) maxUint64 = some es
  firstIndex : l.firstIndex = if es = [] then 1 else firstOf es
  lastIndex : l.lastIndex = lastOf es
  term : ∀ idx, l.term idx = termOf es idx

/-- The batch does not overwrite a full file behind its first entry, or the first entry has no data. -/
def Spares (l : EntryLog) : LogOp → Prop
  | .addEntries batch => batch ≠ [] → ∀ i k f, l.slotGe (firstOf batch) = (some i, some (k + 1)) →
      l.files[i]? = some f → ∃ e, f.getRaftEntry 0 = some e ∧ e.data = []
  | _ => True

end EntryLog

open EntryLog

namespace EntryLog.Holds

variable {l : EntryLog} {fl : Files} (h : l.Holds fl) (hp : fl.Proper)

include h hp

theorem agrees (size : Entry → ℕ) : l.Agrees size fl.entries :=
  ⟨h.allEntries hp size, h.firstIndex, h.lastIndex hp, h.term hp⟩

theorem spares_iff {batch : List Entry} (hne : batch ≠ []) :
    l.Spares (.addEntries batch) ↔ fl.Spared (l.slotGe (firstOf batch)) := by
  have hloc := h.slotGe hp (firstOf batch)
  simp only [EntryLog.Spares, hne, ne_eq, not_false_eq_true, true_implies]
  cases hpos : l.slotGe (firstOf batch) with
  | mk fidx off =>
    rw [hpos] at hloc
    cases hloc with
    | below =>
      refine iff_of_true (fun i k f heq => ?_) (by cases fidx <;> trivial)
      cases heq
    | current => exact iff_of_true (fun i k f heq => by cases heq) trivial
    | @rotated i ls hi hle hlt =>
      obtain ⟨f, hf, hstores, -⟩ := h.file hi
      have hpos := length_pos_iff.mpr (h.rotated_ne ls (mem_of_getElem? hi))
      have hget := hstores.getRaftEntry (getElem?_eq_getElem hpos)
      rw [Files.Spared, hi, Option.getD_some]
      generalize firstOf batch - (firstOf fl.entries + fl.before i) = k
      cases k with
      | zero => exact iff_of_true (fun i k f heq => by cases heq) (by simp [headSpared])
      | succ k =>
        have hhead : (ls.take (k + 1)).head? = some ls[0] := by
          rw [head?_take, if_neg (Nat.succ_ne_zero k), head?_eq_getElem?, getElem?_eq_getElem hpos]
        simp only [headSpared, hhead, Option.some.injEq, forall_eq']
        constructor
        · intro hspares
          obtain ⟨e, he, hdata⟩ := hspares i k f rfl hf
          rw [hget] at he
          rw [Option.some.inj he, hdata]
        · intro hdata i' k' f' heq hf'
          cases heq
          rw [hf] at hf'
          cases hf'
          exact ⟨_, hget, hdata⟩

theorem follows {batch : List Entry} (hop : l.Accepts (.addEntries batch)) : Follows fl.entries batch := by
  obtain ⟨hfits, hcons, hbounds⟩ := hop
  refine ⟨hfits, hcons, fun hes hne => ?_⟩
  have hpos := h.firstOf_pos hes
  have hlast := h.consecutive.lastOf_eq hes
  have := hbounds (by rw [h.lastIndex hp]; omega) hne
  rwa [h.firstIndex, if_neg hes, h.lastIndex hp] at this

/-- **One operation.** -/
theorem exec {op : LogOp} (hop : l.Accepts op) : ∃ l' fl', l.exec op = some l' ∧ l'.Holds fl' ∧ fl'.Proper ∧
      (op.RefStep fl.entries fl'.entries ↔ l.Spares op) := by
  cases op with
  | addEntries batch =>
    by_cases hne : batch = []
    · subst hne
      exact ⟨l, fl, rfl, h, hp, iff_of_true rfl fun hne => absurd rfl hne⟩
    have hfollows := h.follows hp hop
    have hle : fl.entries = [] ∨ firstOf fl.entries ≤ firstOf batch :=
      or_iff_not_imp_left.mpr fun hes => (hfollows.bounds hes hne).1
    obtain ⟨l', fl', hl', h', hp', hentries⟩ := h.addEntries hp hfollows hne
    refine ⟨l', fl', hl', h', hp', ?_⟩
    rw [h.spares_iff hp hne, ← ((h.slotGe hp (firstOf batch)).entries_removed hle).2, LogOp.RefStep, hentries,
      appendRef, if_neg hne, h.consecutive.filter_index_lt, append_cancel_right_eq]
  | deleteBefore raftIndex =>
    refine ⟨_, _, rfl, h.deleteBefore hp raftIndex, hp.keptFrom _, iff_of_true ?_ trivial⟩
    refine ⟨fl.entries.take (fl.droppedBy (l.slotGe raftIndex)), ?_, ?_⟩
    · rw [fl.entries_keptFrom, take_append_drop]
    · intro e he
      obtain ⟨i, hi, rfl⟩ := getElem_of_mem he
      rw [length_take] at hi
      have hle := (h.slotGe hp raftIndex).droppedBy_le
      rw [getElem_take, h.consecutive.index_getElem (by omega)]
      omega
  | reopen => exact ⟨_, fl, rfl, h.openEntryLogs hp, hp, iff_of_true rfl trivial⟩

end EntryLog.Holds

/-- A new log. -/
def EntryLog.empty : EntryLog := ⟨[], FileWrap.openFile [], 0⟩

theorem EntryLog.Holds.empty : empty.Holds ⟨[], []⟩ := ⟨.nil, FileWrap.Stores.create, rfl, by simp, consecutive_nil⟩

/-- A run: what the log is asked to do, each batch being one it accepts. -/
structure LogRun where
  ops : List LogOp
  accepts : ∀ (k : ℕ) (op : LogOp) (l : EntryLog), ops[k]? = some op →
    run EntryLog.exec EntryLog.empty (ops.take k) = some l → l.Accepts op

namespace LogRun

variable (r : LogRun)

/-- The log after `k` operations. -/
def state (k : ℕ) : Option EntryLog := run EntryLog.exec EntryLog.empty (r.ops.take k)

/-- The log reads, all the time, as a list of entries to which each operation does what it is to do. -/
def Refines (size : Entry → ℕ) : Prop := ∃ refs : ℕ → List Entry, refs 0 = [] ∧
    (∀ (k : ℕ) (op : LogOp), r.ops[k]? = some op → op.RefStep (refs k) (refs (k + 1))) ∧
    ∀ k ≤ r.ops.length, ∃ l, r.state k = some l ∧ l.Agrees size (refs k)

/-- The operations spare the data. -/
def Spares : Prop := ∀ (k : ℕ) (op : LogOp) (l : EntryLog), r.ops[k]? = some op → r.state k = some l → l.Spares op

theorem holds (k : ℕ) (hk : k ≤ r.ops.length) : ∃ l fl, r.state k = some l ∧ l.Holds fl ∧ fl.Proper := by
  induction k with
  | zero => exact ⟨_, _, rfl, .empty, fun hne => absurd rfl hne⟩
  | succ k ih =>
    obtain ⟨l, fl, hl, h, hp⟩ := ih (by omega)
    have hop := getElem?_eq_getElem (by omega : k < r.ops.length)
    obtain ⟨l', fl', hl', h', hp', -⟩ := h.exec hp (r.accepts k _ l hop hl)
    refine ⟨l', fl', ?_, h', hp'⟩
    rw [state, run_take_succ _ _ hop, ← state, hl, Option.bind_some, hl']

theorem step {k : ℕ} {op : LogOp} (hop : r.ops[k]? = some op) :
    ∃ l fl l' fl', r.state k = some l ∧ l.Holds fl ∧ fl.Proper ∧ r.state (k + 1) = some l' ∧ l'.Holds fl' ∧
      fl'.Proper ∧ (op.RefStep fl.entries fl'.entries ↔ l.Spares op) := by
  have hk := (List.getElem?_eq_some_iff.mp hop).1
  obtain ⟨l, fl, hl, h, hp⟩ := r.holds k hk.le
  obtain ⟨l', fl', hl', h', hp', hiff⟩ := h.exec hp (r.accepts k op l hop hl)
  refine ⟨l, fl, l', fl', hl, h, hp, ?_, h', hp', hiff⟩
  rw [state, run_take_succ _ _ hop, ← state, hl, Option.bind_some, hl']

/-- The entries read after `k` operations. -/
def held (size : Entry → ℕ) (k : ℕ) : List Entry :=
  ((r.state k).bind fun l => l.allEntries size l.firstIndex (l.lastIndex + 1) maxUint64).getD []

theorem held_eq (size : Entry → ℕ) {k : ℕ} {l : EntryLog} {fl : Files} (hl : r.state k = some l) (h : l.Holds fl)
    (hp : fl.Proper) : r.held size k = fl.entries := by
  rw [held, hl, Option.bind_some, h.allEntries hp size, Option.getD_some]

/-- **The log is a list with truncating append** exactly if its operations spare the data. -/
theorem refines_iff (size : Entry → ℕ) : r.Refines size ↔ r.Spares := by
  constructor
  · rintro ⟨refs, -, hstep, hagrees⟩ k op l hop hl
    have hk := (List.getElem?_eq_some_iff.mp hop).1
    obtain ⟨l₁, fl, l', fl', hl₁, h, hp, hl', h', hp', hiff⟩ := r.step hop
    obtain rfl : l₁ = l := Option.some.inj (hl₁.symm.trans hl)
    have hrefs : ∀ {j : ℕ} {l : EntryLog} {fl : Files}, j ≤ r.ops.length → r.state j = some l → l.Holds fl →
        fl.Proper → refs j = fl.entries := by
      intro j l fl hj hl h hp
      obtain ⟨l2, hl2, hread⟩ := hagrees j hj
      obtain rfl : l2 = l := Option.some.inj (hl2.symm.trans hl)
      exact Option.some.inj (hread.allEntries.symm.trans (h.allEntries hp size))
    have href := hstep k op hop
    rw [hrefs hk.le hl h hp, hrefs (by omega) hl' h' hp'] at href
    exact hiff.mp href
  · intro hspares
    refine ⟨r.held size, ?_, fun k op hop => ?_, fun k hk => ?_⟩
    · exact r.held_eq size rfl .empty fun hne => absurd rfl hne
    · obtain ⟨l, fl, l', fl', hl, h, hp, hl', h', hp', hiff⟩ := r.step hop
      rw [r.held_eq size hl h hp, r.held_eq size hl' h' hp']
      exact hiff.mpr (hspares k op l hop hl)
    · obtain ⟨l, fl, hl, h, hp⟩ := r.holds k hk
      refine ⟨l, hl, ?_⟩
      rw [r.held_eq size hl h hp]
      exact h.agrees hp size

/-! ### A run that loses data -/

section LosesData

/-- Data that fills a file behind an entry with one byte. -/
structure Filling where
  data : Bytes
  length_eq : logFileOffset + 9 + data.length = maxLogFileSize

variable (fill : Filling)

/-- Three entries, the last one of which does not fit the first file. -/
def firstBatch : List Entry := [⟨1, 1, 0, [7]⟩, ⟨1, 2, 0, fill.data⟩, ⟨1, 3, 0, []⟩]

/-- The files after the first batch. -/
def firstFiles : Files :=
  ⟨[[(⟨1, 1, 0, [7]⟩, logFileOffset), (⟨1, 2, 0, fill.data⟩, Placed.dataEnd (⟨1, 1, 0, [7]⟩, logFileOffset))]],
    [(⟨1, 3, 0, []⟩, logFileOffset)]⟩

theorem fits_firstBatch : ∀ e ∈ firstBatch fill, e.Fits := by
  have hroom := fill.length_eq
  have hunit : unit32Size = 4 := rfl
  intro e he
  simp only [firstBatch, mem_cons, not_mem_nil, or_false] at he
  rcases he with rfl | rfl | rfl
  · refine ⟨by decide, by decide, by decide, ?_⟩
    simp only [length_singleton]
    omega
  · refine ⟨by simp, by simp, by simp, ?_⟩
    simp only
    omega
  · refine ⟨by decide, by decide, by decide, ?_⟩
    simp only [length_nil]
    omega

theorem holds_firstBatch : ∃ l, empty.addEntries (firstBatch fill) = some l ∧ l.Holds (firstFiles fill) := by
  have hroom := fill.length_eq
  have hunit : unit32Size = 4 := rfl
  have hmax : 2 < maxNumEntries := by decide
  have hfits := fits_firstBatch fill
  have hproper : Files.Proper ⟨[], []⟩ := fun hne => absurd rfl hne
  -- nothing is removed from an empty log
  obtain ⟨l0, hl0, h0⟩ := EntryLog.Holds.empty.removeFrom hproper 1
  have hloc := EntryLog.Holds.empty.slotGe hproper 1
  have hsame : Files.removed ⟨[], []⟩ (empty.slotGe 1) = ⟨[], []⟩ := by
    generalize empty.slotGe 1 = loc at hloc
    cases hloc with
    | below fidx => cases fidx <;> rfl
    | current hne => exact absurd rfl hne
    | rotated hi => simp at hi
  rw [hsame] at h0
  -- the first two entries fill the file
  have h₁ := h0.write (by simp only [length_nil]; omega) (hfits ⟨1, 1, 0, [7]⟩ (by simp [firstBatch]))
    (by simp only [nextOffset_nil, length_singleton]; omega) rfl
  have h2 := h₁.write (by simp only [nil_append, length_singleton]; omega)
    (hfits ⟨1, 2, 0, fill.data⟩ (by simp [firstBatch]))
    (by simp only [nextOffset_concat, nextOffset_nil, Placed.dataEnd, length_singleton]; omega) rfl
  have h3 := (h2.rotate (by simp)).write (by simp only [length_nil]; omega) (hfits ⟨1, 3, 0, []⟩ (by simp [firstBatch]))
    (by simp only [nextOffset_nil, length_nil]; omega) rfl
  have hnext := nextOffset_concat [] (⟨1, 1, 0, [7]⟩, logFileOffset)
  rw [nil_append] at hnext
  simp only [nextOffset_nil, nil_append] at h₁ h2 h3
  refine ⟨_, ?_, h3⟩
  have hstart := h0.startOffset
  rw [nextOffset_nil] at hstart
  rw [firstBatch, addEntries, hl0]
  simp only [Option.bind_eq_bind, Option.bind_some, hstart]
  rw [writeAll, h0.nextEntryIdx, if_neg (by simp only [length_nil, length_singleton]; omega),
    writeAll, h₁.nextEntryIdx, if_neg (by simp only [length_singleton]; omega),
    writeAll, if_pos (.inr (by simp only [length_singleton]; omega))]
  rfl

theorem proper_firstFiles : (firstFiles fill).Proper := fun _ => by simp [firstFiles]

theorem entries_firstFiles_ne : (firstFiles fill).entries ≠ [] := by
  simp [firstFiles, Files.entries, Files.placed]

/-- The batch that overwrites the second entry. -/
def secondBatch : List Entry := [⟨2, 2, 0, []⟩]

/-- The log accepts both batches. -/
def cutInFullFile : LogRun where
  ops := [.addEntries (firstBatch fill), .addEntries secondBatch]
  accepts := by
    intro k op l hop hl
    obtain ⟨l₁, hl₁, h₁⟩ := holds_firstBatch fill
    match k with
    | 0 =>
      cases hop
      cases hl
      refine ⟨fits_firstBatch fill, rfl, fun hlast => absurd ?_ hlast⟩
      exact EntryLog.Holds.empty.lastIndex fun hne => absurd rfl hne
    | 1 =>
      cases hop
      have hrun : some l₁ = some l := by
        rw [← hl]
        simp [run, EntryLog.exec, hl₁]
      cases hrun
      have hroom := fill.length_eq
      have hunit : unit32Size = 4 := rfl
      refine ⟨fun e he => ?_, rfl, fun _ _ => ?_⟩
      · rw [mem_singleton.mp he]
        refine ⟨by simp, by simp, by simp, ?_⟩
        simp only [length_nil]
        omega
      · rw [h₁.firstIndex, if_neg (entries_firstFiles_ne fill), h₁.lastIndex (proper_firstFiles fill)]
        exact ⟨(by decide : 1 ≤ 2), (by decide : 2 ≤ 3 + 1)⟩
    | k + 2 => cases hop

/-- The second entry is found in the full file, behind the first one. -/
theorem slotGe_firstFiles {l : EntryLog} (h : l.Holds (firstFiles fill)) : l.slotGe 2 = (some 0, some 1) := by
  have hloc := h.slotGe (proper_firstFiles fill) 2
  generalize l.slotGe 2 = loc at hloc
  have hfirst : firstOf (firstFiles fill).entries = 1 := rfl
  cases hloc with
  | below fidx _ hbelow =>
    have hlt := hbelow.resolve_left (entries_firstFiles_ne fill)
    omega
  | current hne hle =>
    have hlen : (firstFiles fill).rotated.flatten.length = 2 := rfl
    omega
  | @rotated i ls hi hle hlt =>
    obtain rfl : i = 0 := by
      have := (List.getElem?_eq_some_iff.mp hi).1
      have hlen : (firstFiles fill).rotated.length = 1 := rfl
      omega
    rfl

theorem held_cutInFullFile (size : Entry → ℕ) : (cutInFullFile fill).held size 1 = firstBatch fill ∧
      (cutInFullFile fill).held size 2 = [⟨1, 1, 0, []⟩, ⟨2, 2, 0, []⟩] := by
  obtain ⟨l₁, hl₁, h₁⟩ := holds_firstBatch fill
  have hp1 := proper_firstFiles fill
  have hstate : (cutInFullFile fill).state 1 = some l₁ := by
    simp [state, cutInFullFile, run, exec, hl₁]
  refine ⟨(cutInFullFile fill).held_eq size hstate h₁ hp1, ?_⟩
  have haccepts := (cutInFullFile fill).accepts 1 (.addEntries secondBatch) l₁ rfl hstate
  obtain ⟨l2, fl2, hl2, h2, hp2, hentries⟩ := h₁.addEntries hp1 (h₁.follows hp1 haccepts) (by simp [secondBatch])
  have hstate2 : (cutInFullFile fill).state 2 = some l2 := by
    simp [state, cutInFullFile, run, exec, hl₁, hl2]
  have hslot : l₁.slotGe (firstOf secondBatch) = (some 0, some 1) := slotGe_firstFiles fill h₁
  rw [(cutInFullFile fill).held_eq size hstate2 h2 hp2, hentries, hslot]
  rfl

/-- Zeros. -/
def zeroFilling : Filling where
  data := replicate (maxLogFileSize - (logFileOffset + 9)) 0
  length_eq := (congrArg _ length_replicate).trans (Nat.add_sub_of_le (by decide))

/-- The first entry of a full file loses its data when the second one is overwritten. -/
theorem cutInFullFile_loses_data : (cutInFullFile zeroFilling).held (fun _ => 0) 1 = firstBatch zeroFilling ∧
      appendRef (firstBatch zeroFilling) secondBatch = [⟨1, 1, 0, [7]⟩, ⟨2, 2, 0, []⟩] ∧
      (cutInFullFile zeroFilling).held (fun _ => 0) 2 = [⟨1, 1, 0, []⟩, ⟨2, 2, 0, []⟩] := by
  obtain ⟨h₁, h2⟩ := held_cutInFullFile zeroFilling fun _ => 0
  exact ⟨h₁, by simp [appendRef, firstBatch, secondBatch, firstOf], h2⟩

end LosesData

end LogRun

end GeminiTS.Raft
