import GeminiTS.Immutable.CompactLog

/-!
# ReplaceFiles — old files of a measurement are replaced by new ones

The files of a measurement are in a list that readers use and in a directory. A replacement writes a log, gives the
new files their names, takes the old files out of the list and the directory one by one and only then puts the
new ones into the list. Every call of the file system may fail, or be the last one before a crash; compaction
may be stopped.

* `Replacement.keeps_iff` — a replacement that fails keeps what readers see exactly if the loop over the old files is
  not left behind the first removal; `stopped_loses_rows` is a replacement that is stopped between two files.
-/

namespace GeminiTS.Immutable

open Lib List

/-! ### Files and directories -/

/-- The directories of a measurement, as the names in them, and the log of the replacement. -/
structure Disk where
  log : Option Bytes
  ordered : List Bytes
  unordered : List Bytes
deriving DecidableEq

namespace Disk

def dir (d : Disk) (order : Bool) : List Bytes := if order then d.ordered else d.unordered

def onDir (d : Disk) (order : Bool) (f : List Bytes → List Bytes) : Disk :=
  if order then { d with ordered := f d.ordered } else { d with unordered := f d.unordered }

/-- A file that had the new name is gone. -/
def rename (d : Disk) (order : Bool) (oldName newName : Bytes) : Disk :=
  d.onDir order fun names => (names.filter (· ≠ oldName)).insert newName

def remove (d : Disk) (order : Bool) (name : Bytes) : Disk := d.onDir order fun names => names.filter (· ≠ name)

end Disk

/-- An open data file: `path` is its name in the directory, which a rename changes. -/
structure TSSPFile (R : Type*) where
  name : TSSPFileName
  path : Bytes
  inuse : Bool
  rows : Multiset R
deriving DecidableEq

variable {R : Type*}

namespace TSSPFiles

def less (f g : TSSPFile R) : Bool :=
  if f.name.seq ≠ g.name.seq then f.name.seq < g.name.seq else f.name.extent < g.name.extent

/-- The binary search: where it ends, and the position of a file with the sequence number if it met one. -/
def search (fs : List (TSSPFile R)) (seq : UInt64) (left right : ℕ) : ℕ × Option ℕ :=
  if left < right then
    let mid := (left + right) / 2
    match fs[mid]? with
    | none => (left, none)
    | some g =>
      if seq = g.name.seq then (left, some mid)
      else if seq < g.name.seq then search fs seq left mid
      else search fs seq (mid + 1) right
  else (left, none)
termination_by right - left

/-- From a position down, among the files with the sequence number. -/
def scanDown (fs : List (TSSPFile R)) (f : TSSPFile R) : ℕ → Option ℕ
  | 0 => (fs[0]?).bind fun g =>
    if g.name.seq ≠ f.name.seq then none else if g.path = f.path then some 0 else none
  | i + 1 => (fs[i + 1]?).bind fun g =>
    if g.name.seq ≠ f.name.seq then none else if g.path = f.path then some (i + 1) else scanDown fs f i

/-- From a position up, among the files with the sequence number. -/
def scanUp (fs : List (TSSPFile R)) (f : TSSPFile R) (i : ℕ) : Option ℕ :=
  if h : i < fs.length then
    if fs[i].name.seq ≠ f.name.seq then none
    else if fs[i].path = f.path then some i
    else scanUp fs f (i + 1)
  else none
termination_by fs.length - i

def fileIndex (fs : List (TSSPFile R)) (f : TSSPFile R) : Option ℕ :=
  if fs = [] then none
  else
    let (left, idx) := search fs f.name.seq 0 (fs.length - 1)
    (idx.bind fun idx => (scanDown fs f idx).or (scanUp fs f (idx + 1))).or
      ((fs[left]?).bind fun g => if g.path = f.path then some left else none)

def deleteFile (fs : List (TSSPFile R)) (f : TSSPFile R) : List (TSSPFile R) :=
  match fileIndex fs f with
  | none => fs
  | some i => fs.eraseIdx i

def sort (fs : List (TSSPFile R)) : List (TSSPFile R) := fs.mergeSort fun f g => !less g f

end TSSPFiles

open TSSPFiles

/-! ### The replacement -/

/-- What comes of a call: it is made, it fails and changes nothing, or the system crashes before it. -/
inductive Outcome
  | done
  | failed
  | crashed
deriving DecidableEq

/-- What comes of writing the log; without success some bytes of it may be left. -/
inductive LogOutcome
  | done
  | failed (left : Option ℕ)
  | crashed (left : Option ℕ)
deriving DecidableEq

/-- The outcome of every call, and whether compaction is stopped when the loop comes to an old file. -/
structure Env where
  log : LogOutcome
  rename : ℕ → Outcome
  stopped : ℕ → Bool
  delete : ℕ → Outcome
  removeLog : Outcome

inductive ReplaceError
  | writeLog
  | rename
  | compStopped
  | delete
  | removeLog
deriving DecidableEq

inductive Status
  | ok
  | error (e : ReplaceError)
  | crashed
deriving DecidableEq

/-- The list of files of a measurement, if it has one, and its directories. -/
structure Table (R : Type*) where
  files : Option (List (TSSPFile R))
  disk : Disk

/-- A file after `RenameTmpFiles`. -/
def TSSPFile.renamed (f : TSSPFile R) : TSSPFile R :=
  if isTempleFile f.path then { f with path := normalName f.path } else f

/-- `RenameTmpFiles`, the first file being number `i`. -/
def renameTmpFiles (env : Env) (order : Bool) : ℕ → List (TSSPFile R) → Disk → Status × Disk
  | _, [], d => (.ok, d)
  | i, f :: fs, d =>
    if isTempleFile f.path then
      match env.rename i with
      | .crashed => (.crashed, d)
      | .failed => (.error .rename, d)
      | .done => renameTmpFiles env order (i + 1) fs (d.rename order f.path (normalName f.path))
    else renameTmpFiles env order (i + 1) fs d

/-- `deleteFiles`: a file that is read keeps existing under a temporary name. -/
def deleteFiles (order : Bool) (f : TSSPFile R) (d : Disk) : Disk :=
  if f.inuse then d.rename order f.path (tmpName f.path) else d.remove order f.path

/-- The loop over the old files, the first one being number `i`. -/
def removeOld (env : Env) (order : Bool) :
    ℕ → List (TSSPFile R) → List (TSSPFile R) → Disk → Status × List (TSSPFile R) × Disk
  | _, [], fs, d => (.ok, fs, d)
  | i, f :: old, fs, d =>
    if env.stopped i then (.error .compStopped, fs, d)
    else
      match env.delete i with
      | .crashed => (.crashed, deleteFile fs f, d)
      | .failed => (.error .delete, deleteFile fs f, d)
      | .done => removeOld env order (i + 1) old (deleteFile fs f) (deleteFiles order f d)

/-- The new files come into the list and the log is removed. -/
def addNew (env : Env) (new fs : List (TSSPFile R)) (d : Disk) : Status × Table R :=
  let files := sort (fs ++ new.map TSSPFile.renamed)
  match env.removeLog with
  | .done => (.ok, ⟨some files, { d with log := none }⟩)
  | .failed => (.error .removeLog, ⟨some files, d⟩)
  | .crashed => (.crashed, ⟨some files, d⟩)

/-- What is done under the lock of the list. -/
def replaceInList (env : Env) (order : Bool) (old new fs : List (TSSPFile R)) (d : Disk) : Status × Table R :=
  match removeOld env order 0 old fs d with
  | (.ok, fs, d) => addNew env new fs d
  | (s, fs, d) => (s, ⟨some fs, d⟩)

/-- `writeCompactedFileInfo` gives this to the log. -/
def compactedFileInfo (name : Bytes) (order : Bool) (old new : List (TSSPFile R)) : CompactedFileInfo :=
  ⟨name, order, old.map TSSPFile.path, new.map TSSPFile.path⟩

def replaceFiles (env : Env) (name : Bytes) (order : Bool) (old new : List (TSSPFile R)) (t : Table R) :
    Status × Table R :=
  if new = [] ∨ old = [] then (.ok, t)
  else
    let bytes := (compactedFileInfo name order old new).logBytes
    match env.log with
    | .failed left => (.error .writeLog, { t with disk := { t.disk with log := left.map bytes.take } })
    | .crashed left => (.crashed, { t with disk := { t.disk with log := left.map bytes.take } })
    | .done =>
      match renameTmpFiles env order 0 new { t.disk with log := some bytes } with
      | (.ok, d) =>
        match t.files with
        | none => (.error .compStopped, ⟨none, d⟩)
        | some fs => replaceInList env order old new fs d
      | (s, d) => (s, { t with disk := d })

/-- A call of `ReplaceFiles`: the measurement, which of its two lists, the list, the files and the directories. -/
structure ReplaceCall (R : Type*) where
  name : Bytes
  order : Bool
  files : List (TSSPFile R)
  old : List (TSSPFile R)
  new : List (TSSPFile R)
  disk : Disk

namespace ReplaceCall

variable (r : ReplaceCall R)

def run (env : Env) : Status × Table R := replaceFiles env r.name r.order r.old r.new ⟨some r.files, r.disk⟩

/-- The names that are written to the log. -/
def info : CompactedFileInfo := compactedFileInfo r.name r.order r.old r.new

/-- The directories when the log is written. -/
def logged : Disk := { r.disk with log := some r.info.logBytes }

theorem run_of_done {env : Env} (hne : ¬ (r.new = [] ∨ r.old = [])) (hlog : env.log = .done) :
    r.run env = match renameTmpFiles env r.order 0 r.new r.logged with
      | (.ok, d) => replaceInList env r.order r.old r.new r.files d
      | (s, d) => (s, ⟨some r.files, d⟩) := by
  rw [run, replaceFiles, if_neg hne, hlog]
  rfl

end ReplaceCall

/-! ### The search finds the file -/

namespace TSSPFiles

/-- The list is sorted and no two files have one path. -/
structure Proper (fs : List (TSSPFile R)) : Prop where
  sorted : fs.Pairwise fun f g => less g f = false
  paths : (fs.map TSSPFile.path).Nodup

theorem seq_le_of_not_less {f g : TSSPFile R} (h : less g f = false) : f.name.seq ≤ g.name.seq := by
  rw [less] at h
  split_ifs at h with hne
  · exact UInt64.not_lt.mp (of_decide_eq_false h)
  · rw [not_not.mp hne]
    exact UInt64.le_refl _

theorem deleteFile_sublist (fs : List (TSSPFile R)) (f : TSSPFile R) : (deleteFile fs f).Sublist fs := by
  rw [deleteFile]
  split
  · exact List.Sublist.refl fs
  · exact eraseIdx_sublist fs _

namespace Proper

variable {fs : List (TSSPFile R)} (h : Proper fs)

include h

theorem sublist {fs' : List (TSSPFile R)} (hsub : fs'.Sublist fs) : Proper fs' :=
  ⟨h.sorted.sublist hsub, h.paths.sublist (hsub.map _)⟩

variable {i j : ℕ} {g : TSSPFile R}

theorem seq_le {f : TSSPFile R} (hij : i ≤ j) (hf : fs[i]? = some f) (hg : fs[j]? = some g) :
    f.name.seq ≤ g.name.seq := by
  obtain ⟨hi, rfl⟩ := List.getElem?_eq_some_iff.mp hf
  obtain ⟨hj, rfl⟩ := List.getElem?_eq_some_iff.mp hg
  rcases Nat.lt_or_eq_of_le hij with hlt | rfl
  · exact seq_le_of_not_less (pairwise_iff_getElem.mp h.sorted i j hi hj hlt)
  · exact UInt64.le_refl _

theorem index_eq {f : TSSPFile R} (hf : fs[i]? = some f) (hg : fs[j]? = some g) (hpath : f.path = g.path) : i = j := by
  obtain ⟨hi, rfl⟩ := List.getElem?_eq_some_iff.mp hf
  obtain ⟨hj, rfl⟩ := List.getElem?_eq_some_iff.mp hg
  have hinj := nodup_iff_injective_get.mp h.paths
  have hsame : (fs.map TSSPFile.path).get ⟨i, by rwa [length_map]⟩ =
      (fs.map TSSPFile.path).get ⟨j, by rwa [length_map]⟩ := by
    rw [get_eq_getElem, get_eq_getElem, getElem_map, getElem_map]
    exact hpath
  exact Fin.mk.inj_iff.mp (hinj hsame)

variable {p : ℕ} {f : TSSPFile R} (hp : fs[p]? = some f)

include hp

/-- The search ends at the file or meets one with its sequence number. -/
theorem search_spec (left right : ℕ) (hleft : left ≤ p) (hright : p ≤ right) (hlen : right < fs.length) :
    (search fs f.name.seq left right).2 = none ∧ (search fs f.name.seq left right).1 = p ∨
      ∃ m g, (search fs f.name.seq left right).2 = some m ∧ fs[m]? = some g ∧ g.name.seq = f.name.seq := by
  induction hn : right - left using Nat.strong_induction_on generalizing left right with
  | _ n ih =>
    rw [search]
    split_ifs with hlt
    · have hg := getElem?_eq_getElem (by omega : (left + right) / 2 < fs.length)
      simp only [hg]
      split_ifs with heq hbelow
      · exact .inr ⟨_, _, rfl, hg, heq.symm⟩
      · -- the file is not behind the middle
        have hp' : p ≤ (left + right) / 2 := by
          by_contra hgt
          exact absurd hbelow (UInt64.not_lt.mpr (h.seq_le (by omega) hg hp))
        exact ih _ (by omega) left _ hleft hp' (by omega) rfl
      · have hp' : (left + right) / 2 + 1 ≤ p := by
          by_contra hgt
          have hle := h.seq_le (by omega) hp hg
          exact heq (UInt64.le_antisymm hle (UInt64.not_lt.mp hbelow))
        exact ih _ (by omega) _ right hp' hright hlen rfl
    · exact .inl ⟨rfl, by show left = p; omega⟩

theorem seq_between {g' : TSSPFile R} (hg : fs[i]? = some g) (hseq : g.name.seq = f.name.seq) (hg' : fs[j]? = some g')
    (hj : p ≤ j ∧ j ≤ i ∨ i ≤ j ∧ j ≤ p) : g'.name.seq = f.name.seq := by
  rcases hj with ⟨hpj, hji⟩ | ⟨hij, hjp⟩
  · exact UInt64.le_antisymm (hseq ▸ h.seq_le hji hg' hg) (h.seq_le hpj hp hg')
  · exact UInt64.le_antisymm (h.seq_le hjp hg' hp) (hseq ▸ h.seq_le hij hg hg')

theorem scanDown_eq (hg : fs[i]? = some g) (hseq : g.name.seq = f.name.seq) (hpi : p ≤ i) :
    scanDown fs f i = some p := by
  induction i generalizing g with
  | zero =>
    obtain rfl : p = 0 := by omega
    rw [scanDown, hp, Option.bind_some, if_neg (not_not.mpr rfl), if_pos rfl]
  | succ i ih =>
    rcases Nat.lt_or_eq_of_le hpi with hlt | rfl
    · have hpath : g.path ≠ f.path := fun heq => by
        have := h.index_eq hg hp heq
        omega
      have hlen := (List.getElem?_eq_some_iff.mp hg).1
      have hi := getElem?_eq_getElem (by omega : i < fs.length)
      rw [scanDown, hg, Option.bind_some, if_neg (not_not.mpr hseq), if_neg hpath]
      exact ih hi (h.seq_between hp hg hseq hi (.inl ⟨by omega, by omega⟩)) (by omega)
    · rw [scanDown, hp, Option.bind_some, if_neg (not_not.mpr rfl), if_pos rfl]

theorem scanDown_none (hip : i < p) : scanDown fs f i = none := by
  have hpath : ∀ (j : ℕ) g, fs[j]? = some g → j < p → g.path ≠ f.path := by
    intro j g hg hj heq
    have := h.index_eq hg hp heq
    omega
  induction i with
  | zero =>
    rw [scanDown, Option.bind_eq_none_iff]
    intro g hg
    rw [if_neg (hpath 0 g hg hip), ite_self]
  | succ i ih =>
    rw [scanDown, Option.bind_eq_none_iff]
    intro g hg
    rw [if_neg (hpath (i + 1) g hg hip), ih (by omega), ite_self]

theorem scanUp_eq (hip : i ≤ p)
    (hseq : ∀ (j : ℕ) (g : TSSPFile R), i ≤ j → j ≤ p → fs[j]? = some g → g.name.seq = f.name.seq) :
    scanUp fs f i = some p := by
  induction hn : p - i generalizing i with
  | zero =>
    obtain rfl : i = p := by omega
    obtain ⟨hlen, rfl⟩ := List.getElem?_eq_some_iff.mp hp
    rw [scanUp, dif_pos hlen, if_neg (not_not.mpr rfl), if_pos rfl]
  | succ n ih =>
    have hlen : i < fs.length := by
      have := (List.getElem?_eq_some_iff.mp hp).1
      omega
    have hi := getElem?_eq_getElem hlen
    have hpath : fs[i].path ≠ f.path := fun heq => by
      have := h.index_eq hi hp heq
      omega
    rw [scanUp, dif_pos hlen, if_neg (not_not.mpr (hseq i _ le_rfl hip hi)), if_neg hpath]
    exact ih (by omega) (fun j g hj => hseq j g (by omega)) (by omega)

/-- **The search finds the file.** -/
theorem fileIndex_eq : fileIndex fs f = some p := by
  have hlen := (List.getElem?_eq_some_iff.mp hp).1
  have hne : fs ≠ [] := ne_nil_of_length_pos (by omega)
  rw [fileIndex, if_neg hne]
  rcases h.search_spec hp 0 (fs.length - 1) (by omega) (by omega) (by omega) with ⟨hidx, hleft⟩ | ⟨m, g, hidx, hg, hseq⟩
  · simp only [hidx, hleft, Option.bind_none, Option.none_or, hp, Option.bind_some, if_true]
  · simp only [hidx, Option.bind_some]
    rcases lt_or_ge m p with hlt | hge
    · have hup : scanUp fs f (m + 1) = some p := h.scanUp_eq hp hlt fun j g' hj hjp hg' =>
        h.seq_between hp hg hseq hg' (.inr ⟨by omega, hjp⟩)
      rw [h.scanDown_none hp hlt, hup]
      rfl
    · rw [h.scanDown_eq hp hg hseq hge]
      rfl

omit hp

theorem deleteFile_perm (hf : f ∈ fs) : fs.Perm (f :: deleteFile fs f) := by
  obtain ⟨i, hi⟩ := getElem?_of_mem hf
  obtain ⟨hlen, rfl⟩ := List.getElem?_eq_some_iff.mp hi
  rw [deleteFile, h.fileIndex_eq hi]
  exact (getElem_cons_eraseIdx_perm hlen).symm

theorem deleteFile (f : TSSPFile R) : Proper (deleteFile fs f) := h.sublist (deleteFile_sublist fs f)

end Proper

end TSSPFiles

/-! ### What readers see -/

def rowsOf (fs : List (TSSPFile R)) : Multiset R := (fs.map TSSPFile.rows).sum

theorem rowsOf_append (fs fs' : List (TSSPFile R)) : rowsOf (fs ++ fs') = rowsOf fs + rowsOf fs' := by
  rw [rowsOf, map_append, sum_append, ← rowsOf, ← rowsOf]

theorem rowsOf_perm {fs fs' : List (TSSPFile R)} (h : fs.Perm fs') : rowsOf fs = rowsOf fs' :=
  (h.map TSSPFile.rows).sum_eq

theorem rows_renamed (f : TSSPFile R) : f.renamed.rows = f.rows := by
  rw [TSSPFile.renamed]
  split_ifs <;> rfl

theorem rowsOf_renamed (fs : List (TSSPFile R)) : rowsOf (fs.map TSSPFile.renamed) = rowsOf fs := by
  rw [rowsOf, map_map]
  congr 1
  exact map_congr_left fun f _ => rows_renamed f

theorem eq_nil_of_rowsOf {gone fs fs' : List (TSSPFile R)} (hperm : fs.Perm (gone ++ fs'))
    (hrows : ∀ f ∈ gone, f.rows ≠ 0) (hsame : rowsOf fs' = rowsOf fs) : gone = [] := by
  rw [rowsOf_perm hperm, rowsOf_append, right_eq_add] at hsame
  cases gone with
  | nil => rfl
  | cons f gone =>
    have hcard : (f.rows + rowsOf gone).card = 0 := congrArg Multiset.card hsame
    rw [Multiset.card_add] at hcard
    exact absurd (Multiset.card_eq_zero.mp (by omega)) (hrows f mem_cons_self)

/-! ### Failures -/

/-- What goes wrong without a crash: writing the log, which then leaves some bytes, renaming a new file, deleting an
old one, removing the log; and whether compaction is stopped when the loop comes to an old file. -/
structure Faults where
  log : Option (Option ℕ)
  rename : ℕ → Bool
  stopped : ℕ → Bool
  delete : ℕ → Bool
  removeLog : Bool

def Outcome.ofFault (fails : Bool) : Outcome := if fails then .failed else .done

namespace Faults

variable (x : Faults)

def env : Env where
  log := match x.log with
    | none => .done
    | some left => .failed left
  rename i := .ofFault (x.rename i)
  stopped := x.stopped
  delete i := .ofFault (x.delete i)
  removeLog := .ofFault x.removeLog

/-- Old file number `i` is removed and the loop goes on. -/
def Passes (i : ℕ) : Prop := x.stopped i = false ∧ x.delete i = false

/-- The loop over `n` old files is left when one of them is already out of the list. -/
def LeavesLoop (n : ℕ) : Prop :=
  ∃ i < n, (∀ j < i, x.Passes j) ∧ (x.stopped i = true ∧ 0 < i ∨ x.stopped i = false ∧ x.delete i = true)

/-- Renaming one of the new files fails, the first one being number `i`. -/
def RenameFails (i : ℕ) (new : List (TSSPFile R)) : Prop :=
  ∃ j f, new[j]? = some f ∧ isTempleFile f.path = true ∧ x.rename (i + j) = true

variable {x}

theorem renameFails_cons {i : ℕ} {f : TSSPFile R} {new : List (TSSPFile R)} :
    x.RenameFails i (f :: new) ↔ (isTempleFile f.path = true ∧ x.rename i = true) ∨ x.RenameFails (i + 1) new := by
  constructor
  · rintro ⟨j, g, hg, htmp, hfail⟩
    cases j with
    | zero =>
      cases hg
      exact .inl ⟨htmp, hfail⟩
    | succ j => exact .inr ⟨j, g, hg, htmp, by rwa [show i + 1 + j = i + (j + 1) by omega]⟩
  · rintro (⟨htmp, hfail⟩ | ⟨j, g, hg, htmp, hfail⟩)
    · exact ⟨0, f, rfl, htmp, hfail⟩
    · exact ⟨j + 1, g, hg, htmp, by rwa [show i + (j + 1) = i + 1 + j by omega]⟩

theorem renameTmpFiles_status (x : Faults) (order : Bool) (i : ℕ) (new : List (TSSPFile R)) (d : Disk) :
    x.RenameFails i new ∧ (renameTmpFiles x.env order i new d).1 = .error .rename ∨
      ¬ x.RenameFails i new ∧ (renameTmpFiles x.env order i new d).1 = .ok := by
  induction new generalizing i d with
  | nil =>
    refine .inr ⟨?_, rfl⟩
    rintro ⟨j, f, hf, -⟩
    cases hf
  | cons f new ih =>
    rw [renameFails_cons, renameTmpFiles]
    by_cases htmp : isTempleFile f.path = true
    · have houtcome : x.env.rename i = .ofFault (x.rename i) := rfl
      rw [if_pos htmp, houtcome]
      cases hfail : x.rename i with
      | true => exact .inl ⟨.inl ⟨htmp, rfl⟩, rfl⟩
      | false =>
        simp only [Bool.false_eq_true, and_false, false_or]
        exact ih (i + 1) (d.rename order f.path (normalName f.path))
    · simp only [eq_false htmp, false_and, false_or]
      exact ih (i + 1) d

/-- The loop is not stopped at its first file, and some file does not pass. -/
theorem leavesLoop_iff {n : ℕ} : x.LeavesLoop n ↔ x.stopped 0 = false ∧ ¬ ∀ j < n, x.Passes j := by
  constructor
  · rintro ⟨i, hi, hbefore, hend⟩
    constructor
    · rcases Nat.eq_zero_or_pos i with rfl | hpos
      · exact hend.elim (fun h => absurd h.2 (lt_irrefl 0)) And.left
      · exact (hbefore 0 hpos).1
    · intro hall
      have hpass := hall i hi
      rcases hend with ⟨hstop, -⟩ | ⟨-, hdel⟩
      · exact absurd (hpass.1.symm.trans hstop) (by decide)
      · exact absurd (hpass.2.symm.trans hdel) (by decide)
  · rintro ⟨hgo, hnot⟩
    classical
    push Not at hnot
    -- the first file that does not pass
    obtain ⟨hi, hfirst⟩ := Nat.find_spec hnot
    refine ⟨_, hi, fun j hj => not_not.mp fun h => Nat.find_min hnot hj ⟨hj.trans hi, h⟩, ?_⟩
    cases hstop : x.stopped (Nat.find hnot) with
    | true =>
      refine .inl ⟨rfl, Nat.pos_of_ne_zero fun h0 => ?_⟩
      rw [h0, hgo] at hstop
      cases hstop
    | false => exact .inr ⟨rfl, Bool.eq_true_of_not_eq_false fun h => hfirst ⟨hstop, h⟩⟩

/-- **How the loop over the old files ends**: it removes all, or it fails, with the list as it was if it is stopped at
the first file and without some of the old files otherwise. -/
theorem removeOld_cases (x : Faults) (order : Bool) (i : ℕ) {old fs : List (TSSPFile R)} (d : Disk) (h : Proper fs)
    (hmem : old ⊆ fs) (hpaths : (old.map TSSPFile.path).Nodup) {s : Status} {fs' : List (TSSPFile R)} {d' : Disk}
    (hrun : removeOld x.env order i old fs d = (s, fs', d')) :
    (∀ j < old.length, x.Passes (i + j)) ∧ s = .ok ∧ fs.Perm (old ++ fs') ∨
      (¬ ∀ j < old.length, x.Passes (i + j)) ∧ (∃ e, s = .error e) ∧ (x.stopped i = true ∧ fs' = fs ∨
        x.stopped i = false ∧ ∃ gone ⊆ old, gone ≠ [] ∧ fs.Perm (gone ++ fs')) := by
  induction old generalizing i fs d with
  | nil =>
    cases hrun
    exact .inl ⟨fun j hj => absurd hj (Nat.not_lt_zero j), rfl, List.Perm.refl _⟩
  | cons f old ih =>
    have hdelete : x.env.delete i = .ofFault (x.delete i) := rfl
    have hperm := h.deleteFile_perm (hmem mem_cons_self)
    have hall : (∀ j < (f :: old).length, x.Passes (i + j)) ↔ x.Passes i ∧ ∀ j < old.length, x.Passes (i + 1 + j) := by
      simp only [length_cons, Nat.forall_lt_succ_left, add_zero, Nat.add_right_comm i 1, add_assoc i]
    rw [removeOld, show x.env.stopped i = x.stopped i from rfl, hdelete] at hrun
    rw [hall]
    cases hstop : x.stopped i with
    | true =>
      rw [hstop] at hrun
      cases hrun
      exact Or.inr ⟨fun hpass => absurd (hpass.1.1.symm.trans hstop) (by decide), ⟨_, rfl⟩, Or.inl ⟨rfl, rfl⟩⟩
    | false =>
      cases hdel : x.delete i with
      | true =>
        rw [hstop, hdel] at hrun
        cases hrun
        exact Or.inr ⟨fun hpass => absurd (hpass.1.2.symm.trans hdel) (by decide), ⟨_, rfl⟩,
          Or.inr ⟨rfl, [f], by simp, by simp, hperm⟩⟩
      | false =>
        rw [hstop, hdel] at hrun
        rw [map_cons, nodup_cons] at hpaths
        have hmem' : old ⊆ deleteFile fs f := by
          intro g hg
          rcases mem_cons.mp (hperm.subset (hmem (mem_cons_of_mem f hg))) with rfl | hg'
          · exact absurd (mem_map_of_mem hg) hpaths.1
          · exact hg'
        rw [and_iff_right (show x.Passes i from ⟨hstop, hdel⟩)]
        rcases ih (i + 1) _ (h.deleteFile f) hmem' hpaths.2 hrun with ⟨hrest, hs, hperm'⟩ | ⟨hrest, hs, hend⟩
        · exact Or.inl ⟨hrest, hs, hperm.trans (hperm'.cons f)⟩
        · refine Or.inr ⟨hrest, hs, Or.inr ⟨rfl, ?_⟩⟩
          rcases hend with ⟨-, rfl⟩ | ⟨-, gone, hsub, -, hperm'⟩
          · exact ⟨[f], by simp, by simp, hperm⟩
          · exact ⟨f :: gone, cons_subset_cons f hsub, by simp, hperm.trans (hperm'.cons f)⟩

end Faults

/-- A replacement of files of a list by files with the same rows. -/
structure Replacement (R : Type*) extends ReplaceCall R where
  proper : Proper files
  old_mem : old ⊆ files
  old_paths : (old.map TSSPFile.path).Nodup
  old_rows : ∀ f ∈ old, f.rows ≠ 0
  new_rows : rowsOf new = rowsOf old

namespace Replacement

variable (r : Replacement R)

/-- Readers see the rows they saw before, in the old files or in the new ones in their place. -/
def Keeps (t : Table R) : Prop := ∃ fs, t.files = some fs ∧ rowsOf fs = rowsOf r.files ∧
    (fs = r.files ∨ ∃ rest, r.files.Perm (r.old ++ rest) ∧ fs.Perm (rest ++ r.new.map TSSPFile.renamed))

theorem keeps_of_files (d : Disk) : r.Keeps ⟨some r.files, d⟩ := ⟨r.files, rfl, rfl, Or.inl rfl⟩

theorem keeps_addNew (x : Faults) {rest : List (TSSPFile R)} (hperm : r.files.Perm (r.old ++ rest)) (d : Disk) :
    r.Keeps (addNew x.env r.new rest d).2 := by
  have hfiles : (addNew x.env r.new rest d).2.files = some (sort (rest ++ r.new.map TSSPFile.renamed)) := by
    rw [addNew]
    split <;> rfl
  have hsort : (sort (rest ++ r.new.map TSSPFile.renamed)).Perm (rest ++ r.new.map TSSPFile.renamed) :=
    mergeSort_perm _ _
  refine ⟨_, hfiles, ?_, Or.inr ⟨rest, hperm, hsort⟩⟩
  rw [rowsOf_perm hsort, rowsOf_perm hperm, rowsOf_append, rowsOf_append, rowsOf_renamed, r.new_rows, add_comm]

theorem replaceInList_keeps_iff (x : Faults) (d : Disk) :
    (∀ e t, replaceInList x.env r.order r.old r.new r.files d = (.error e, t) → r.Keeps t) ↔
      ¬ x.LeavesLoop r.old.length := by
  obtain ⟨s, fs, d', hloop⟩ : ∃ s fs d', removeOld x.env r.order 0 r.old r.files d = (s, fs, d') := ⟨_, _, _, rfl⟩
  have hcases := x.removeOld_cases r.order 0 d r.proper r.old_mem r.old_paths hloop
  simp only [Nat.zero_add] at hcases
  rw [replaceInList, hloop, Faults.leavesLoop_iff]
  rcases hcases with ⟨hall, rfl, hperm⟩ | ⟨hnot, ⟨e, rfl⟩, ⟨hstop, rfl⟩ | ⟨hgo, gone, hsub, hne, hperm⟩⟩
  · refine iff_of_true (fun e t ht => ?_) fun h => h.2 hall
    have hkeeps := r.keeps_addNew x hperm d'
    rwa [show addNew x.env r.new fs d' = (.error e, t) from ht] at hkeeps
  · refine iff_of_true (fun e t ht => ?_) fun h => absurd (h.1.symm.trans hstop) (by decide)
    cases ht
    exact r.keeps_of_files d'
  · refine iff_of_false (fun hkeeps => ?_) fun h => h ⟨hgo, hnot⟩
    obtain ⟨fs', hfs', hrows, -⟩ := hkeeps e _ rfl
    cases hfs'
    exact hne (eq_nil_of_rowsOf hperm (fun f hf => r.old_rows f (hsub hf)) hrows)

/-- The replacement gets to the loop over the old files and leaves it with one of them out of the list. -/
def LeavesLoop (x : Faults) : Prop := r.new ≠ [] ∧ x.log = none ∧ ¬ x.RenameFails 0 r.new ∧ x.LeavesLoop r.old.length

/-- **A failed replacement keeps what readers see** exactly if the loop over the old files is not left with a file
out of the list. -/
theorem keeps_iff (x : Faults) : (∀ e t, r.run x.env = (.error e, t) → r.Keeps t) ↔ ¬ r.LeavesLoop x := by
  by_cases hempty : r.new = [] ∨ r.old = []
  · have hrun : r.run x.env = (.ok, ⟨some r.files, r.disk⟩) := if_pos hempty
    constructor
    · rintro - ⟨hnew, -, -, i, hi, -⟩
      rcases hempty with h | h
      · exact hnew h
      · rw [h] at hi
        exact Nat.not_lt_zero i hi
    · intro _ e t h
      rw [hrun] at h
      cases h
  cases hlog : x.log with
  | some left =>
    have henv : x.env.log = .failed left := by rw [Faults.env, hlog]
    rw [ReplaceCall.run, replaceFiles, if_neg hempty, henv]
    constructor
    · rintro - ⟨-, hnone, -⟩
      rw [hlog] at hnone
      cases hnone
    · intro _ e t h
      cases h
      exact r.keeps_of_files _
  | none =>
    rw [r.run_of_done hempty (by rw [Faults.env, hlog])]
    have hstatus := x.renameTmpFiles_status r.order 0 r.new r.logged
    rcases hrename : renameTmpFiles x.env r.order 0 r.new r.logged with ⟨s, d⟩
    rw [hrename] at hstatus
    rcases hstatus with ⟨hfails, rfl⟩ | ⟨hfine, rfl⟩
    · constructor
      · rintro - ⟨-, -, hnot, -⟩
        exact hnot hfails
      · intro _ e t h
        cases h
        exact r.keeps_of_files _
    · refine (r.replaceInList_keeps_iff x d).trans (not_congr ?_)
      exact ⟨fun h => ⟨fun hnil => hempty (Or.inl hnil), hlog, hfine, h⟩, fun h => h.2.2.2⟩

/-! ### A replacement that is stopped between two files -/

/-- File number `n` of level `level`. -/
def fileOf (n : UInt64) (level : UInt16) (tmp : Bool) (rows : Multiset ℕ) : TSSPFile ℕ :=
  let base := TSSPFileName.base ⟨n, level, 0, 0⟩
  ⟨⟨n, level, 0, 0⟩, if tmp then tmpName base else base, false, rows⟩

/-- Two files with one row each are replaced by one with both. -/
def twoFiles : Replacement ℕ where
  name := ascii ['c', 'p', 'u']
  order := true
  files := [fileOf 1 0 false {10}, fileOf 2 0 false {20}]
  old := [fileOf 1 0 false {10}, fileOf 2 0 false {20}]
  new := [fileOf 1 1 true {10, 20}]
  disk := ⟨none, [TSSPFileName.base ⟨1, 0, 0, 0⟩, TSSPFileName.base ⟨2, 0, 0, 0⟩,
    tmpName (TSSPFileName.base ⟨1, 1, 0, 0⟩)], []⟩
  proper := ⟨by decide +kernel, by decide +kernel⟩
  old_mem := List.Subset.refl _
  old_paths := by decide +kernel
  old_rows := by decide +kernel
  new_rows := by decide +kernel

/-- Compaction is stopped when the loop comes to the second file. -/
def stoppedAtSecond : Faults := ⟨none, fun _ => false, fun i => i == 1, fun _ => false, false⟩

/-- Readers do not see row 10 any more. -/
theorem stopped_loses_rows : (twoFiles.run stoppedAtSecond.env).1 = .error .compStopped ∧
    (twoFiles.run stoppedAtSecond.env).2.files = some [fileOf 2 0 false {20}] := by
  decide +kernel

end Replacement

end GeminiTS.Immutable
