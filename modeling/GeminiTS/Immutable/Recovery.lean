import GeminiTS.Immutable.ReplaceFiles

/-!
# Recovery — opening a table after a crash

Opening a table first works off the log of a replacement and then loads the data files; the loader deletes
temporary files. Recovery itself may be interrupted at any call and start again.
-/

namespace GeminiTS.Immutable

open Lib TSSPFiles List

/-! ### Recovery -/

/-- A call that changes the directories. -/
inductive FsOp
  | rename (order : Bool) (oldName newName : Bytes)
  | remove (order : Bool) (name : Bytes)
  | removeLog
deriving DecidableEq

namespace Disk

def apply (d : Disk) : FsOp → Disk
  | .rename order oldName newName => d.rename order oldName newName
  | .remove order name => d.remove order name
  | .removeLog => { d with log := none }

def applyAll (d : Disk) (ops : List FsOp) : Disk := ops.foldl apply d

end Disk

section Process

-- the names in the directory of ordered files when recovery comes to the log
variable (dirs : List Bytes)

def newFileExist (newFile : Bytes) : Bool := normalName newFile ∈ dirs ∨ newFile ∈ dirs

def oldFileExist (oldFile : Bytes) : Bool := oldFile ∈ dirs ∨ tmpName oldFile ∈ dirs

def renameFile (nameInLog : Bytes) : List FsOp :=
  if nameInLog ∈ dirs then [.rename true nameInLog (normalName nameInLog)] else []

/-- New files get their names, old files are removed. -/
def processFiles (info : CompactedFileInfo) : List FsOp :=
  info.newFile.flatMap (renameFile dirs) ++ (info.oldFile.filter (oldFileExist dirs)).map (.remove true)

/-- If a new file is missing old files in use get their names back, unless one of them is missing too. -/
def processLog (info : CompactedFileInfo) : List FsOp :=
  if info.newFile.all (newFileExist dirs) then processFiles dirs info
  else if info.oldFile.all (oldFileExist dirs) then info.oldFile.flatMap fun f => renameFile dirs (tmpName f)
  else []

end Process

/-- Nothing if the log cannot be read: then opening the table fails. -/
def procCompactLog (d : Disk) : Option (List FsOp) :=
  match d.log with
  | none => some []
  | some bytes =>
    match readCompactLogFile bytes with
    | .ok info => some (processLog d.ordered info ++ [.removeLog])
    | .error .dirty => some []
    | .error (.unmarshal _) => none

/-- The loader opens the file. -/
def loads (name : Bytes) : Bool := ext name = tsspFileSuffix && (parseFileName name).isSome

/-- The loader deletes the file. -/
def cleans (name : Bytes) : Bool :=
  if ext name = tsspFileSuffix then (parseFileName name).isNone else isTempleFile name

def loader (d : Disk) : List FsOp :=
  (d.ordered.filter cleans).map (.remove true) ++ (d.unordered.filter cleans).map (.remove false)

/-- The calls `Open` makes. -/
def openOps (d : Disk) : Option (List FsOp) := (procCompactLog d).map fun ops => ops ++ loader (d.applyAll ops)

/-- The names of the files `Open` loads from one of the directories. -/
def openTable (d : Disk) (order : Bool) : Option (List Bytes) :=
  (openOps d).map fun ops => ((d.applyAll ops).dir order).filter loads

/-- `Open` is interrupted behind `k` calls. -/
def interrupted (d : Disk) (k : ℕ) : Disk :=
  match openOps d with
  | none => d
  | some ops => d.applyAll (ops.take k)

/-- `Open` is interrupted again and again. -/
def recovered (d : Disk) (attempts : List ℕ) : Disk := attempts.foldl interrupted d

/-! ### Directories -/

namespace Disk

variable (d : Disk) (order order' : Bool)

@[simp] theorem log_rename (a b : Bytes) : (d.rename order a b).log = d.log := by
  cases order <;> rfl

@[simp] theorem log_remove (a : Bytes) : (d.remove order a).log = d.log := by
  cases order <;> rfl

theorem mem_dir_rename {a b x : Bytes} : x ∈ (d.rename order a b).dir order ↔ x = b ∨ x ∈ d.dir order ∧ x ≠ a := by
  cases order <;> simp [rename, onDir, dir]

theorem mem_dir_remove {a x : Bytes} : x ∈ (d.remove order a).dir order ↔ x ∈ d.dir order ∧ x ≠ a := by
  cases order <;> simp [remove, onDir, dir]

theorem dir_remove_other {order order' : Bool} (h : order ≠ order') (a : Bytes) :
    (d.remove order a).dir order' = d.dir order' := by
  cases order <;> cases order' <;> first | rfl | exact absurd rfl h

theorem applyAll_append (ops ops' : List FsOp) : d.applyAll (ops ++ ops') = (d.applyAll ops).applyAll ops' :=
  foldl_append

theorem applyAll_induct {P : Disk → Prop} {ops : List FsOp} (hstep : ∀ d, ∀ op ∈ ops, P d → P (d.apply op))
    {d : Disk} (h : P d) : P (d.applyAll ops) := by
  induction ops generalizing d with
  | nil => exact h
  | cons op ops ih =>
    exact ih (fun d op hop => hstep d op (mem_cons_of_mem _ hop)) (hstep d op mem_cons_self h)

end Disk

/-! ### Names the loader opens -/

theorem loads_base (n : TSSPFileName) : loads n.base = true := by
  rw [loads, ext_base, n.parseFileName_base]
  rfl

theorem not_loads_tmpName (name : Bytes) : loads (tmpName name) = false := by
  rw [loads, ext_tmpName]
  rfl

variable {d0 : Disk} {ops : List FsOp} {order : Bool} {op : FsOp} {x : Bytes}

theorem ne_tmpName (hx : loads x = true) (name : Bytes) : x ≠ tmpName name := by
  rintro rfl
  rw [not_loads_tmpName] at hx
  cases hx

theorem not_loads_of_cleans (h : cleans x = true) : loads x = false := by
  rw [cleans] at h
  rw [loads]
  split_ifs at h with hext
  · rw [hext, Option.isNone_iff_eq_none.mp h]
    rfl
  · rw [decide_eq_false hext, Bool.false_and]

/-- The loader opens the same files of a directory. -/
def SameFiles (order : Bool) (d d' : Disk) : Prop := ∀ x, loads x = true → (x ∈ d'.dir order ↔ x ∈ d.dir order)

theorem SameFiles.refl (order : Bool) (d : Disk) : SameFiles order d d := fun _ _ => Iff.rfl

theorem SameFiles.trans {d d' d'' : Disk} (h : SameFiles order d d') (h' : SameFiles order d' d'') :
    SameFiles order d d'' := fun x hx => (h' x hx).trans (h x hx)

theorem loader_apply (hop : op ∈ loader d0) (order : Bool) (d : Disk) :
    SameFiles order d (d.apply op) ∧ (d.apply op).log = d.log := by
  have hremove : ∃ order' name, op = .remove order' name ∧ cleans name = true := by
    rw [loader, mem_append, mem_map, mem_map] at hop
    rcases hop with ⟨name, hname, rfl⟩ | ⟨name, hname, rfl⟩
    · exact ⟨true, name, rfl, (mem_filter.mp hname).2⟩
    · exact ⟨false, name, rfl, (mem_filter.mp hname).2⟩
  obtain ⟨order', name, rfl, hclean⟩ := hremove
  refine ⟨fun x hx => ?_, d.log_remove order' name⟩
  have hne : x ≠ name := by
    rintro rfl
    rw [not_loads_of_cleans hclean] at hx
    cases hx
  show x ∈ (d.remove order' name).dir order ↔ _
  by_cases hsame : order' = order
  · subst hsame
    rw [Disk.mem_dir_remove]
    exact ⟨fun h => h.1, fun h => ⟨h, hne⟩⟩
  · rw [d.dir_remove_other hsame]

theorem loader_applyAll (hops : ops ⊆ loader d0) (order : Bool) (d : Disk) :
    SameFiles order d (d.applyAll ops) ∧ (d.applyAll ops).log = d.log := by
  apply Disk.applyAll_induct (P := fun d' => SameFiles order d d' ∧ d'.log = d.log)
  · intro d' op hop ⟨hsame, hlog⟩
    obtain ⟨hsame', hlog'⟩ := loader_apply (hops hop) order d'
    exact ⟨hsame.trans hsame', hlog'.trans hlog⟩
  · exact ⟨SameFiles.refl order d, rfl⟩

theorem mem_filter_loads {d d' : Disk} (h : SameFiles order d d') (x : Bytes) :
    x ∈ (d'.dir order).filter loads ↔ loads x = true ∧ x ∈ d.dir order := by
  rw [mem_filter, and_comm]
  exact and_congr_right fun hx => h x hx

/-! ### A log with nothing to do -/

/-- There is no log, or only a part of one. -/
def Idle (d : Disk) : Prop := d.log = none ∨ ∃ bytes, d.log = some bytes ∧ readCompactLogFile bytes = .error .dirty

namespace Idle

variable {d : Disk} (h : Idle d)

include h

theorem openOps_eq : openOps d = some (loader d) := by
  have hproc : procCompactLog d = some [] := by
    rcases h with hlog | ⟨bytes, hlog, hread⟩
    · rw [procCompactLog, hlog]
    · simp only [procCompactLog, hlog, hread]
  rw [openOps, hproc]
  rfl

theorem interrupted (order : Bool) (k : ℕ) :
    Idle (interrupted d k) ∧ SameFiles order d (Immutable.interrupted d k) := by
  rw [Immutable.interrupted, h.openOps_eq]
  obtain ⟨hsame, hlog⟩ := loader_applyAll (take_subset k (loader d)) order d
  refine ⟨?_, hsame⟩
  rw [Idle, hlog]
  exact h

theorem openTable (order : Bool) :
    ∃ names, openTable d order = some names ∧ ∀ x, x ∈ names ↔ loads x = true ∧ x ∈ d.dir order := by
  rw [Immutable.openTable, h.openOps_eq]
  exact ⟨_, rfl, mem_filter_loads (loader_applyAll (List.Subset.refl _) order d).1⟩

end Idle

/-! ### Out-of-order files -/

/-- There is no log, or reading it does not fail. -/
def Readable (d : Disk) : Prop := ∀ bytes, d.log = some bytes → ∀ e, readCompactLogFile bytes ≠ .error (.unmarshal e)

/-- A call of the recovery from the log, which knows the directory of ordered files only. -/
theorem procCompactLog_op (h : procCompactLog d0 = some ops) (hop : op ∈ ops) :
    op = .removeLog ∨ (∃ a b, op = .rename true a b) ∨ ∃ a, op = .remove true a := by
  have hrename : ∀ {names : List Bytes}, op ∈ names.flatMap (renameFile d0.ordered) → ∃ a b, op = .rename true a b := by
    intro names hmem
    obtain ⟨name, -, hname⟩ := mem_flatMap.mp hmem
    rw [renameFile] at hname
    split_ifs at hname with hin
    · exact ⟨_, _, mem_singleton.mp hname⟩
    · cases hname
  rw [procCompactLog] at h
  split at h
  · cases h
    cases hop
  · split at h
    · next info _ =>
      cases h
      rcases mem_append.mp hop with hop | hop
      · rw [processLog] at hop
        split_ifs at hop
        · rcases mem_append.mp hop with hop | hop
          · exact .inr (.inl (hrename hop))
          · obtain ⟨a, -, rfl⟩ := mem_map.mp hop
            exact .inr (.inr ⟨a, rfl⟩)
        · rw [← flatMap_map] at hop
          exact .inr (.inl (hrename hop))
        · cases hop
      · exact .inl (mem_singleton.mp hop)
    · cases h
      cases hop
    · cases h

namespace Readable

variable {d : Disk} (h : Readable d)

include h

theorem exists_openOps : ∃ ops, procCompactLog d = some ops ∧ openOps d = some (ops ++ loader (d.applyAll ops)) := by
  have hproc : ∃ ops, procCompactLog d = some ops := by
    cases hlog : d.log with
    | none => exact ⟨[], by rw [procCompactLog, hlog]⟩
    | some bytes =>
      cases hread : readCompactLogFile bytes with
      | ok info => exact ⟨processLog d.ordered info ++ [.removeLog], by simp only [procCompactLog, hlog, hread]⟩
      | error e =>
        cases e with
        | dirty => exact ⟨[], by simp only [procCompactLog, hlog, hread]⟩
        | unmarshal e => exact absurd hread (h bytes hlog e)
  obtain ⟨ops, hops⟩ := hproc
  exact ⟨ops, hops, by rw [openOps, hops]; rfl⟩

/-- Recovery does not touch the files in the directory of out-of-order files. -/
theorem applyAll {ops : List FsOp} (hops : openOps d = some ops) {ops' : List FsOp} (hsub : ops' ⊆ ops) :
    Readable (d.applyAll ops') ∧ SameFiles false d (d.applyAll ops') := by
  obtain ⟨ops0, hproc, hopen⟩ := h.exists_openOps
  rw [hopen, Option.some.injEq] at hops
  apply Disk.applyAll_induct (P := fun d' => Readable d' ∧ SameFiles false d d')
  · intro d' op hop ⟨hread, hsame⟩
    have hcall := hsub hop
    rw [← hops, mem_append] at hcall
    rcases hcall with hcall | hcall
    · rcases procCompactLog_op hproc hcall with rfl | ⟨a, b, rfl⟩ | ⟨a, rfl⟩
      · refine ⟨fun bytes hnone => ?_, hsame⟩
        cases hnone
      · refine ⟨fun bytes hlog => hread bytes ?_, ?_⟩
        · rwa [← d'.log_rename true a b]
        · show SameFiles false d (d'.rename true a b)
          rwa [SameFiles]
      · refine ⟨fun bytes hlog => hread bytes ?_, ?_⟩
        · rwa [← d'.log_remove true a]
        · show SameFiles false d (d'.remove true a)
          rwa [SameFiles]
    · obtain ⟨hsame', hlog'⟩ := loader_apply hcall false d'
      refine ⟨fun bytes hlog => hread bytes ?_, hsame.trans hsame'⟩
      rwa [← hlog']
  · exact ⟨h, SameFiles.refl false d⟩

theorem interrupted (k : ℕ) : Readable (interrupted d k) ∧ SameFiles false d (Immutable.interrupted d k) := by
  obtain ⟨ops, -, hopen⟩ := h.exists_openOps
  rw [Immutable.interrupted, hopen]
  exact h.applyAll hopen (take_subset k _)

theorem openTable : ∃ names, openTable d false = some names ∧ ∀ x, x ∈ names ↔ loads x = true ∧ x ∈ d.dir false := by
  obtain ⟨ops, -, hopen⟩ := h.exists_openOps
  rw [Immutable.openTable, hopen]
  exact ⟨_, rfl, mem_filter_loads (h.applyAll hopen (List.Subset.refl _)).2⟩

end Readable

/-! ### Renames and removals -/

/-- Files get their names. -/
def renames (order : Bool) (names : List Bytes) : List FsOp := names.map fun n => .rename order (tmpName n) n

theorem mem_renames {names : List Bytes} (hx : loads x = true) (d : Disk) :
    x ∈ (d.applyAll (renames order names)).dir order ↔ x ∈ d.dir order ∨ x ∈ names := by
  induction names generalizing d with
  | nil => exact ⟨.inl, fun h => h.resolve_right (not_mem_nil)⟩
  | cons n names ih =>
    have hstep : x ∈ (d.rename order (tmpName n) n).dir order ↔ x = n ∨ x ∈ d.dir order := by
      rw [Disk.mem_dir_rename]
      exact or_congr_right (and_iff_left (ne_tmpName hx n))
    show x ∈ ((d.rename order (tmpName n) n).applyAll (renames order names)).dir order ↔ _
    rw [ih, hstep, mem_cons, or_comm (a := x = n), or_assoc]

/-- Files lose their names, by removal or because they get a temporary one. -/
def IsRemoval (order : Bool) (name : Bytes) (op : FsOp) : Prop :=
  op = .remove order name ∨ op = .rename order name (tmpName name)

theorem mem_removals {α : Type*} {files : List α} {name : α → Bytes} {call : α → FsOp}
    (hcall : ∀ f ∈ files, IsRemoval order (name f) (call f)) (hx : loads x = true) (d : Disk) :
    x ∈ (d.applyAll (files.map call)).dir order ↔ x ∈ d.dir order ∧ ∀ f ∈ files, x ≠ name f := by
  induction files generalizing d with
  | nil => exact ⟨fun h => ⟨h, fun _ hf => absurd hf not_mem_nil⟩, fun h => h.1⟩
  | cons f files ih =>
    have hstep : x ∈ (d.apply (call f)).dir order ↔ x ∈ d.dir order ∧ x ≠ name f := by
      rcases hcall f mem_cons_self with hop | hop
      · rw [hop]
        exact d.mem_dir_remove order
      · rw [hop]
        exact (d.mem_dir_rename order).trans (or_iff_right (ne_tmpName hx (name f)))
    show x ∈ ((d.apply (call f)).applyAll (files.map call)).dir order ↔ _
    rw [ih (fun g hg => hcall g (mem_cons_of_mem f hg)), hstep, and_assoc, forall_mem_cons]

end GeminiTS.Immutable
