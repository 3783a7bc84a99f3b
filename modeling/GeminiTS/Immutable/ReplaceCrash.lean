import GeminiTS.Immutable.Recovery

/-!
# ReplaceCrash — crashes during a replacement

* `CrashedCall.oldOrNew_iff` — all old or all new files are loaded, however often recovery is interrupted, exactly at
  the safe crash points; `unordered_mixture` is a crash in the middle of an out-of-order replacement.
-/

namespace GeminiTS.Immutable

open Lib TSSPFiles List

variable {R : Type*}

/-! ### Crashes -/

/-- Where `ReplaceFiles` ends: while the log is written, at the rename of a new file, at the removal of an old one,
at the removal of the log, or after it. -/
inductive CrashPoint
  | log (left : Option ℕ)
  | rename (i : ℕ)
  | delete (i : ℕ)
  | removeLog
  | finished

/-- Up to the crash every call is made. -/
def CrashPoint.env : CrashPoint → Env
  | log left => ⟨.crashed left, fun _ => .done, fun _ => false, fun _ => .done, .done⟩
  | rename i => ⟨.done, fun j => if j = i then .crashed else .done, fun _ => false, fun _ => .done, .done⟩
  | delete i => ⟨.done, fun _ => .done, fun _ => false, fun j => if j = i then .crashed else .done, .done⟩
  | removeLog => ⟨.done, fun _ => .done, fun _ => false, fun _ => .done, .crashed⟩
  | finished => ⟨.done, fun _ => .done, fun _ => false, fun _ => .done, .done⟩

/-- The call that takes an old file out of the directory. -/
def deleteOp (order : Bool) (f : TSSPFile R) : FsOp :=
  if f.inuse then .rename order f.path (tmpName f.path) else .remove order f.path

variable {env : Env} {i n : ℕ} (order : Bool) (f : TSSPFile R)

theorem isRemoval_deleteOp : IsRemoval order f.path (deleteOp order f) := by
  rw [deleteOp]
  split_ifs
  · exact .inr rfl
  · exact .inl rfl

theorem deleteFiles_eq (d : Disk) : deleteFiles order f d = d.apply (deleteOp order f) := by
  rw [deleteFiles, deleteOp]
  split_ifs <;> rfl

theorem renameTmpFiles_skip {names : List (TSSPFile R)} (hpath : ∀ f ∈ names, f.path = tmpName f.name.base)
    (hn : n ≤ names.length) (hdone : ∀ j < n, env.rename (i + j) = .done) (d : Disk) :
    renameTmpFiles env order i names d = renameTmpFiles env order (i + n) (names.drop n)
      (d.applyAll (renames order ((names.take n).map fun f => f.name.base))) := by
  induction n generalizing i names d with
  | zero => rfl
  | succ n ih =>
    cases names with
    | nil => exact absurd hn (Nat.not_succ_le_zero n)
    | cons f names =>
      have hf := hpath f mem_cons_self
      rw [renameTmpFiles, hf, if_pos (isTempleFile_tmpName _), normalName_tmpName]
      have h0 := hdone 0 (Nat.succ_pos n)
      rw [add_zero] at h0
      rw [h0]
      rw [ih (fun g hg => hpath g (mem_cons_of_mem f hg)) (Nat.le_of_succ_le_succ hn)
        (fun j hj => by rw [show i + 1 + j = i + (j + 1) by omega]; exact hdone (j + 1) (by omega)),
        show i + 1 + n = i + (n + 1) by omega]
      rfl

theorem removeOld_skip {old : List (TSSPFile R)} (hn : n ≤ old.length) (hstop : ∀ j, env.stopped j = false)
    (hdone : ∀ j < n, env.delete (i + j) = .done) (fs : List (TSSPFile R)) (d : Disk) :
    ∃ fs', removeOld env order i old fs d = removeOld env order (i + n) (old.drop n) fs'
      (d.applyAll ((old.take n).map (deleteOp order))) := by
  induction n generalizing i old fs d with
  | zero => exact ⟨fs, rfl⟩
  | succ n ih =>
    cases old with
    | nil => exact absurd hn (Nat.not_succ_le_zero n)
    | cons f old =>
      have h0 := hdone 0 (Nat.succ_pos n)
      rw [add_zero] at h0
      obtain ⟨fs', hfs'⟩ := ih (Nat.le_of_succ_le_succ hn)
        (fun j hj => by rw [show i + 1 + j = i + (j + 1) by omega]; exact hdone (j + 1) (by omega)) (deleteFile fs f)
        (d.apply (deleteOp order f))
      refine ⟨fs', ?_⟩
      rw [removeOld, hstop, h0, deleteFiles_eq]
      rw [hfs', show i + 1 + n = i + (n + 1) by omega]
      rfl

/-- A replacement whose files are in the directory, the new ones under temporary names, and get names of their own. -/
structure CrashedCall (R : Type*) extends ReplaceCall R where
  old_ne : old ≠ []
  new_ne : new ≠ []
  old_path : ∀ f ∈ old, f.path = f.name.base
  old_paths : (old.map TSSPFile.path).Nodup
  new_path : ∀ f ∈ new, f.path = tmpName f.name.base
  new_paths : (new.map TSSPFile.path).Nodup
  fresh : ∀ f ∈ new, ∀ g ∈ old, f.name.base ≠ g.name.base
  old_mem : ∀ f ∈ old, f.path ∈ disk.dir order
  new_mem : ∀ f ∈ new, f.path ∈ disk.dir order
  new_not_mem : ∀ f ∈ new, f.name.base ∉ disk.dir order
  log_none : disk.log = none
  fits : toReplaceCall.info.Fits

namespace CrashedCall

variable (r : CrashedCall R)

/-- What is on disk after the crash. -/
def crashed (c : CrashPoint) : Disk := (r.run c.env).2.disk

/-- All old files and no new one is loaded, or the other way round. -/
def OldOrNew (d : Disk) : Prop := ∃ names, openTable d r.order = some names ∧
    ((∀ f ∈ r.old, f.name.base ∈ names) ∧ (∀ f ∈ r.new, f.name.base ∉ names) ∨
      (∀ f ∈ r.new, f.name.base ∈ names) ∧ ∀ f ∈ r.old, f.name.base ∉ names)

/-- The old files are there and the new ones are not. -/
def Untouched (d : Disk) : Prop := (∀ f ∈ r.old, f.name.base ∈ d.dir r.order) ∧ ∀ f ∈ r.new, f.name.base ∉ d.dir r.order

/-- The new files are there and the old ones are not. -/
def Replaced (d : Disk) : Prop := (∀ f ∈ r.new, f.name.base ∈ d.dir r.order) ∧ ∀ f ∈ r.old, f.name.base ∉ d.dir r.order

/-! #### What is on disk after the crash -/

theorem ne_nil : ¬ (r.new = [] ∨ r.old = []) := fun h => h.elim r.new_ne r.old_ne

/-- The directories with the log, after the first `n` renames and the first `k` removals. -/
def after (n k : ℕ) : Disk := (r.logged.applyAll (renames r.order ((r.new.take n).map fun f => f.name.base))).applyAll
    ((r.old.take k).map (deleteOp r.order))

theorem crashed_log (left : Option ℕ) :
    r.crashed (.log left) = { r.disk with log := left.map r.info.logBytes.take } := by
  rw [crashed, ReplaceCall.run, replaceFiles, if_neg r.ne_nil]
  rfl

theorem crashed_rename {i : ℕ} (hi : i < r.new.length) : r.crashed (.rename i) = r.after i 0 := by
  have hdone : ∀ j < i, (CrashPoint.rename i).env.rename (0 + j) = .done := fun j hj => if_neg (by omega)
  have hcrash : (CrashPoint.rename i).env.rename i = .crashed := if_pos rfl
  rw [crashed, r.run_of_done r.ne_nil rfl, renameTmpFiles_skip r.order r.new_path hi.le hdone, zero_add,
    drop_eq_getElem_cons hi, renameTmpFiles, r.new_path _ (getElem_mem hi),
    if_pos (isTempleFile_tmpName _), hcrash]
  rfl

theorem run_of_renamed {env : Env} (hlog : env.log = .done) (hdone : ∀ j < r.new.length, env.rename j = .done) :
    r.run env = replaceInList env r.order r.old r.new r.files (r.after r.new.length 0) := by
  have hdone' : ∀ j < r.new.length, env.rename (0 + j) = .done := fun j hj => by
    rw [zero_add]
    exact hdone j hj
  rw [r.run_of_done r.ne_nil hlog, renameTmpFiles_skip r.order r.new_path le_rfl hdone', drop_length]
  rfl

theorem crashed_delete {i : ℕ} (hi : i < r.old.length) : r.crashed (.delete i) = r.after r.new.length i := by
  have hdone : ∀ j < i, (CrashPoint.delete i).env.delete (0 + j) = .done := fun j hj => if_neg (by omega)
  have hcrash : (CrashPoint.delete i).env.delete i = .crashed := if_pos rfl
  obtain ⟨fs, hfs⟩ := removeOld_skip r.order hi.le (fun _ => rfl) hdone r.files (r.after r.new.length 0)
  rw [crashed, r.run_of_renamed rfl (fun _ _ => rfl), replaceInList, hfs, zero_add,
    drop_eq_getElem_cons hi, removeOld, hcrash]
  rfl

/-- If every file is renamed or removed only the outcome for the log is open. -/
theorem run_of_removed {env : Env} (hlog : env.log = .done) (hrename : ∀ j < r.new.length, env.rename j = .done)
    (hstop : ∀ j, env.stopped j = false) (hdelete : ∀ j < r.old.length, env.delete j = .done) :
    ∃ fs, r.run env = addNew env r.new fs (r.after r.new.length r.old.length) := by
  have hdone : ∀ j < r.old.length, env.delete (0 + j) = .done := fun j hj => by
    rw [zero_add]
    exact hdelete j hj
  obtain ⟨fs, hfs⟩ := removeOld_skip r.order le_rfl hstop hdone r.files (r.after r.new.length 0)
  refine ⟨fs, ?_⟩
  rw [r.run_of_renamed hlog hrename, replaceInList, hfs, drop_length]
  rfl

theorem crashed_removeLog : r.crashed .removeLog = r.after r.new.length r.old.length := by
  obtain ⟨fs, hfs⟩ : ∃ fs, r.run CrashPoint.removeLog.env =
      addNew CrashPoint.removeLog.env r.new fs (r.after r.new.length r.old.length) :=
    r.run_of_removed rfl (fun _ _ => rfl) (fun _ => rfl) fun _ _ => rfl
  rw [crashed, hfs]
  rfl

variable {c : CrashPoint} {f : TSSPFile R} {d : Disk}

theorem crashed_of_done (hlog : c.env.log = .done)
    (hrename : ∀ j < r.new.length, c.env.rename j = .done) (hstop : ∀ j, c.env.stopped j = false)
    (hdelete : ∀ j < r.old.length, c.env.delete j = .done) (hremove : c.env.removeLog = .done) :
    r.crashed c = { r.after r.new.length r.old.length with log := none } := by
  obtain ⟨fs, hfs⟩ := r.run_of_removed hlog hrename hstop hdelete
  rw [crashed, hfs, addNew, hremove]

/-! #### Which files the loader finds -/

theorem mem_after {x : Bytes} (hx : loads x = true) (n k : ℕ) : x ∈ (r.after n k).dir r.order ↔
    (x ∈ r.disk.dir r.order ∨ ∃ f ∈ r.new.take n, f.name.base = x) ∧ ∀ f ∈ r.old.take k, x ≠ f.name.base := by
  have hcall : ∀ f ∈ r.old.take k, IsRemoval r.order f.name.base (deleteOp r.order f) := fun f hf => by
    rw [← r.old_path f (mem_of_mem_take hf)]
    exact isRemoval_deleteOp r.order f
  rw [after, mem_removals hcall hx, mem_renames hx, mem_map]
  rfl

theorem new_mem_after {n : ℕ} (k : ℕ) (hf : f ∈ r.new.take n) : f.name.base ∈ (r.after n k).dir r.order := by
  rw [r.mem_after (loads_base f.name)]
  refine ⟨.inr ⟨f, hf, rfl⟩, fun g hg => ?_⟩
  exact r.fresh f (mem_of_mem_take hf) g (mem_of_mem_take hg)

theorem old_mem_after (n k : ℕ) (hf : f ∈ r.old) : f.name.base ∈ (r.after n k).dir r.order ↔ f ∉ r.old.take k := by
  rw [r.mem_after (loads_base f.name)]
  have hdir := r.old_mem f hf
  rw [r.old_path f hf] at hdir
  constructor
  · exact fun h hmem => h.2 f hmem rfl
  · refine fun h => ⟨.inl hdir, fun g hg hsame => h ?_⟩
    have hg' := mem_of_mem_take hg
    rw [← r.old_path f hf, ← r.old_path g hg'] at hsame
    rwa [inj_on_of_nodup_map r.old_paths hf hg' hsame]

theorem replaced_after : r.Replaced (r.after r.new.length r.old.length) := by
  refine ⟨fun f hf => r.new_mem_after _ (by rwa [take_length]), fun f hf => ?_⟩
  rw [r.old_mem_after _ _ hf, take_length]
  exact not_not.mpr hf

theorem untouched_disk : r.Untouched r.disk := by
  refine ⟨fun f hf => ?_, r.new_not_mem⟩
  rw [← r.old_path f hf]
  exact r.old_mem f hf

/-! #### The log is written and the new files are there -/

/-- From here recovery can finish the replacement. -/
structure Logged (d : Disk) : Prop where
  log : d.log = some r.info.logBytes
  new : ∀ f ∈ r.new, f.name.base ∈ d.dir r.order ∨ tmpName f.name.base ∈ d.dir r.order

/-- A call of the replacement: a new file gets its name, or an old one loses it. -/
def Step (op : FsOp) : Prop := (∃ f ∈ r.new, op = .rename r.order (tmpName f.name.base) f.name.base) ∨
    ∃ f ∈ r.old, IsRemoval r.order f.name.base op

variable {r}

theorem Logged.apply (h : r.Logged d) {op : FsOp} (hop : r.Step op) : r.Logged (d.apply op) := by
  -- a removal takes the name of an old file out, which no new file has
  have hkeep : ∀ f ∈ r.new, ∀ g ∈ r.old, ∀ d' : Disk, (∀ x, x ∈ d.dir r.order → x ≠ g.name.base → x ∈ d'.dir r.order) →
        f.name.base ∈ d'.dir r.order ∨ tmpName f.name.base ∈ d'.dir r.order := by
    intro f hf g hg d' hd'
    refine (h.new f hf).imp (fun hmem => hd' _ hmem (r.fresh f hf g hg)) fun hmem => hd' _ hmem ?_
    exact (ne_tmpName (loads_base g.name) _).symm
  rcases hop with ⟨g, hg, rfl⟩ | ⟨g, hg, rfl | rfl⟩
  · refine ⟨(d.log_rename _ _ _).trans h.log, fun f hf => ?_⟩
    show f.name.base ∈ (d.rename _ _ _).dir _ ∨ tmpName f.name.base ∈ (d.rename _ _ _).dir _
    rw [Disk.mem_dir_rename, Disk.mem_dir_rename]
    by_cases hsame : f.name.base = g.name.base
    · exact .inl (.inl hsame)
    · refine (h.new f hf).imp (fun hmem => .inr ⟨hmem, ne_tmpName (loads_base f.name) _⟩) fun hmem => ?_
      exact .inr ⟨hmem, fun htmp => hsame (tmpName_injective htmp)⟩
  · refine ⟨(d.log_remove _ _).trans h.log, fun f hf => hkeep f hf g hg _ fun x hx hne => ?_⟩
    exact (d.mem_dir_remove _).mpr ⟨hx, hne⟩
  · refine ⟨(d.log_rename _ _ _).trans h.log, fun f hf => hkeep f hf g hg _ fun x hx hne => ?_⟩
    exact (d.mem_dir_rename _).mpr (.inr ⟨hx, hne⟩)

theorem Logged.applyAll (h : r.Logged d) {ops : List FsOp} (hops : ∀ op ∈ ops, r.Step op) : r.Logged (d.applyAll ops) :=
  Disk.applyAll_induct (fun _ op hop h => h.apply (hops op hop)) h

variable (r)

theorem step_rename (hf : f ∈ r.new) : r.Step (.rename r.order (tmpName f.name.base) f.name.base) := .inl ⟨f, hf, rfl⟩

theorem step_deleteOp (hf : f ∈ r.old) : r.Step (deleteOp r.order f) := by
  refine .inr ⟨f, hf, ?_⟩
  rw [← r.old_path f hf]
  exact isRemoval_deleteOp r.order f

theorem logged_logged : r.Logged r.logged := by
  refine ⟨rfl, fun f hf => .inr ?_⟩
  rw [← r.new_path f hf]
  exact r.new_mem f hf

theorem logged_after (n k : ℕ) : r.Logged (r.after n k) := by
  apply Logged.applyAll
  · apply r.logged_logged.applyAll
    intro op hop
    rw [renames, map_map, mem_map] at hop
    obtain ⟨f, hf, rfl⟩ := hop
    exact r.step_rename (mem_of_mem_take hf)
  · intro op hop
    obtain ⟨f, hf, rfl⟩ := mem_map.mp hop
    exact r.step_deleteOp (mem_of_mem_take hf)

/-! #### Recovery of ordered files -/

/-- The renames recovery makes, of the new files it finds under temporary names. -/
theorem flatMap_renameFile (dirs names : List Bytes) :
    (names.map tmpName).flatMap (renameFile dirs) = renames true (names.filter fun n => tmpName n ∈ dirs) := by
  induction names with
  | nil => rfl
  | cons n names ih =>
    rw [map_cons, flatMap_cons, ih, renameFile, normalName_tmpName, filter_cons]
    by_cases hmem : tmpName n ∈ dirs
    · rw [if_pos hmem, if_pos (decide_eq_true hmem)]
      rfl
    · rw [if_neg hmem, if_neg (by rw [decide_eq_false hmem]; decide)]
      rfl

theorem info_newFile : r.info.newFile = (r.new.map fun f => f.name.base).map tmpName := by
  show r.new.map TSSPFile.path = _
  rw [map_map]
  exact map_congr_left r.new_path

theorem info_oldFile : r.info.oldFile = r.old.map fun f => f.name.base := map_congr_left r.old_path

variable {r}

theorem Logged.procCompactLog (h : r.Logged d) (horder : r.order = true) :
    procCompactLog d = some (processFiles d.ordered r.info ++ [.removeLog]) := by
  have hdir : d.dir r.order = d.ordered := by rw [horder]; rfl
  have hall : r.info.newFile.all (newFileExist d.ordered) = true := by
    rw [info_newFile, all_eq_true]
    intro x hx
    obtain ⟨n, hn, rfl⟩ := mem_map.mp hx
    obtain ⟨f, hf, rfl⟩ := mem_map.mp hn
    rw [newFileExist, normalName_tmpName]
    have hnew := h.new f hf
    rw [hdir] at hnew
    exact decide_eq_true hnew
  simp only [Immutable.procCompactLog, h.log, readCompactLogFile_logBytes r.fits, processLog, hall, if_true]

theorem Logged.step_processFiles (horder : r.order = true) {op : FsOp}
    (hop : op ∈ processFiles d.ordered r.info) : r.Step op := by
  rw [processFiles, info_newFile, flatMap_renameFile, info_oldFile, mem_append, renames, mem_map, mem_map] at hop
  rcases hop with ⟨n, hn, rfl⟩ | ⟨n, hn, rfl⟩
  · obtain ⟨f, hf, rfl⟩ := mem_map.mp (mem_of_mem_filter hn)
    rw [← horder]
    exact r.step_rename hf
  · obtain ⟨f, hf, rfl⟩ := mem_map.mp (mem_of_mem_filter hn)
    exact .inr ⟨f, hf, .inl (by rw [horder])⟩

theorem Logged.replaced (h : r.Logged d) (horder : r.order = true) :
    r.Replaced (d.applyAll (processFiles d.ordered r.info)) := by
  have hdir : d.dir true = d.ordered := rfl
  have hmem : ∀ x, loads x = true → (x ∈ (d.applyAll (processFiles d.ordered r.info)).dir true ↔
      (x ∈ d.ordered ∨ x ∈ (r.new.map fun f => f.name.base).filter fun n => tmpName n ∈ d.ordered) ∧
        ∀ n ∈ (r.old.map fun f => f.name.base).filter (oldFileExist d.ordered), x ≠ n) := by
    intro x hx
    rw [processFiles, info_newFile, flatMap_renameFile, info_oldFile, Disk.applyAll_append,
      mem_removals (fun n _ => .inl rfl) hx, mem_renames hx, hdir]
  have hnew := h.new
  rw [horder] at hnew
  rw [Replaced, horder]
  constructor
  · intro f hf
    rw [hmem _ (loads_base f.name)]
    constructor
    · refine (hnew f hf).imp id fun htmp => mem_filter.mpr ⟨mem_map_of_mem hf, decide_eq_true htmp⟩
    · intro n hn
      obtain ⟨g, hg, rfl⟩ := mem_map.mp (mem_of_mem_filter hn)
      exact r.fresh f hf g hg
  · intro g hg
    rw [hmem _ (loads_base g.name)]
    rintro ⟨hfound, hkept⟩
    rcases hfound with hfound | hfound
    · refine hkept _ (mem_filter.mpr ⟨mem_map_of_mem hg, ?_⟩) rfl
      exact decide_eq_true (.inl hfound)
    · obtain ⟨f, hf, hsame⟩ := mem_map.mp (mem_of_mem_filter hfound)
      exact r.fresh f hf g hg hsame

/-- The calls of recovery from here: to the end of the replacement, then those of the loader. -/
theorem Logged.openOps (h : r.Logged d) (horder : r.order = true) :
    ∃ d', d.applyAll (processFiles d.ordered r.info ++ [.removeLog]) = d' ∧ d'.log = none ∧ r.Replaced d' ∧
      openOps d = some (processFiles d.ordered r.info ++ [.removeLog] ++ loader d') := by
  refine ⟨_, rfl, ?_, ?_, ?_⟩
  · rw [Disk.applyAll_append]
    rfl
  · have hdir : ∀ (d : Disk) order, (d.applyAll [.removeLog]).dir order = d.dir order := by
      intro d order
      cases order <;> rfl
    rw [Disk.applyAll_append]
    exact h.replaced horder
  · rw [Immutable.openOps, h.procCompactLog horder]
    rfl

variable (r)

/-! #### All attempts -/

/-- The directory is as before the replacement or as after it. -/
def Settled (d : Disk) : Prop := r.Untouched d ∨ r.Replaced d

theorem Settled.of_sameFiles {d' : Disk} (h : r.Settled d) (hsame : SameFiles r.order d d') : r.Settled d' := by
  have hbase : ∀ n : TSSPFileName, n.base ∈ d'.dir r.order ↔ n.base ∈ d.dir r.order := fun n => hsame _ (loads_base n)
  refine h.imp (fun ⟨hold, hnew⟩ => ⟨fun f hf => ?_, fun f hf => ?_⟩) fun ⟨hnew, hold⟩ =>
    ⟨fun f hf => ?_, fun f hf => ?_⟩
  · exact (hbase _).mpr (hold f hf)
  · rw [hbase]
    exact hnew f hf
  · exact (hbase _).mpr (hnew f hf)
  · rw [hbase]
    exact hold f hf

theorem oldOrNew_iff_settled (h : ∃ names, openTable d r.order = some names ∧
    ∀ x, x ∈ names ↔ loads x = true ∧ x ∈ d.dir r.order) : r.OldOrNew d ↔ r.Settled d := by
  obtain ⟨names, hopen, hnames⟩ := h
  have hbase : ∀ n : TSSPFileName, n.base ∈ names ↔ n.base ∈ d.dir r.order := fun n => by
    rw [hnames, and_iff_right (loads_base n)]
  rw [OldOrNew, hopen]
  simp only [Option.some.injEq, exists_eq_left', hbase]
  rfl

/-- What leads to all old or all new files. -/
def Good (d : Disk) : Prop :=
  r.order = true ∧ (Idle d ∧ r.Settled d ∨ r.Logged d) ∨ r.order = false ∧ Readable d ∧ r.Settled d

variable {r}

theorem Good.interrupted (h : r.Good d) (k : ℕ) : r.Good (interrupted d k) := by
  rcases h with ⟨horder, ⟨hidle, hsettled⟩ | hlogged⟩ | ⟨horder, hread, hsettled⟩
  · obtain ⟨hidle', hsame⟩ := hidle.interrupted r.order k
    exact .inl ⟨horder, .inl ⟨hidle', hsettled.of_sameFiles r hsame⟩⟩
  · refine .inl ⟨horder, ?_⟩
    obtain ⟨d', hd', hlog, hreplaced, hops⟩ := hlogged.openOps horder
    rw [Immutable.interrupted, hops]
    set ops := processFiles d.ordered r.info
    show Idle (d.applyAll _) ∧ r.Settled (d.applyAll _) ∨ r.Logged (d.applyAll _)
    rcases lt_or_ge ops.length k with hk | hk
    · -- the replacement is finished and the loader is at work
      left
      rw [take_append, take_of_length_le (by rw [length_append, length_singleton]; omega), Disk.applyAll_append, hd']
      obtain ⟨hsame, hlog'⟩ := loader_applyAll (take_subset (k - (ops ++ [FsOp.removeLog]).length) (loader d'))
        r.order d'
      refine ⟨.inl (hlog'.trans hlog), ?_⟩
      exact Settled.of_sameFiles r (.inr hreplaced) hsame
    · right
      rw [append_assoc, take_append_of_le_length hk]
      exact hlogged.applyAll fun op hop => Logged.step_processFiles horder (mem_of_mem_take hop)
  · obtain ⟨hread', hsame⟩ := hread.interrupted k
    rw [← horder] at hsame
    exact .inr ⟨horder, hread', hsettled.of_sameFiles r hsame⟩

theorem Good.oldOrNew (h : r.Good d) : r.OldOrNew d := by
  rcases h with ⟨horder, ⟨hidle, hsettled⟩ | hlogged⟩ | ⟨horder, hread, hsettled⟩
  · exact (r.oldOrNew_iff_settled (hidle.openTable r.order)).mpr hsettled
  · obtain ⟨d', hd', hlog, hreplaced, hops⟩ := hlogged.openOps horder
    have hidle : Idle d' := .inl hlog
    have hopen : openTable d r.order = openTable d' r.order := by
      rw [openTable, openTable, hops, hidle.openOps_eq, Option.map_some, Option.map_some, Disk.applyAll_append, hd']
    rw [OldOrNew, hopen]
    exact (r.oldOrNew_iff_settled (hidle.openTable r.order)).mpr (.inr hreplaced)
  · refine (r.oldOrNew_iff_settled ?_).mpr hsettled
    rw [horder]
    exact hread.openTable

theorem Good.recovered (h : r.Good d) (attempts : List ℕ) : r.Good (recovered d attempts) := by
  induction attempts generalizing d with
  | nil => exact h
  | cons k attempts ih => exact ih (h.interrupted k)

/-! #### Safe crash points -/

variable (r)

/-- Crash points from which all old or all new files come back: a part of the log does not end like a whole log, and
out-of-order files are not between the first rename and the last removal. -/
def Safe : CrashPoint → Prop
  | .log none => True
  | .log (some k) => ¬ (k < r.info.logBytes.length ∧ compLogMagic <:+ r.info.logBytes.take k)
  | .rename i => r.order = true ∨ i = 0 ∨ r.new.length ≤ i
  | .delete i => r.order = true ∨ r.old.length ≤ i
  | .removeLog => True
  | .finished => True

theorem info_suffix : tsspFileSuffix ++ tmpFileSuffix <:+ r.info.marshal := by
  have hnew : r.info.newFile = r.new.dropLast.map TSSPFile.path ++ [(r.new.getLast r.new_ne).path] := by
    show r.new.map TSSPFile.path = _
    conv_lhs => rw [← dropLast_append_getLast r.new_ne]
    rw [map_append]
    rfl
  refine CompactedFileInfo.marshal_suffix hnew ?_
  rw [r.new_path _ (getLast_mem r.new_ne), tmpName, TSSPFileName.base, append_assoc]
  exact suffix_append _ _

variable {r} in
theorem Logged.readable (h : r.Logged d) : Readable d := by
  intro bytes hbytes e
  rw [h.log, Option.some.injEq] at hbytes
  rw [← hbytes, readCompactLogFile_logBytes r.fits]
  exact fun hok => by cases hok

/-- Whatever has come of the names, with a whole log only the directory matters. -/
theorem good_of_logged (h : r.Logged d) (hsettled : r.order = false → r.Settled d) : r.Good d := by
  cases horder : r.order with
  | true => exact .inl ⟨horder, .inr h⟩
  | false => exact .inr ⟨horder, h.readable, hsettled horder⟩

theorem good_of_idle (h : Idle d) (hsettled : r.Settled d) : r.Good d := by
  cases horder : r.order with
  | true => exact .inl ⟨horder, .inl ⟨h, hsettled⟩⟩
  | false =>
    refine .inr ⟨horder, fun bytes hbytes e hread => ?_, hsettled⟩
    rcases h with hnone | ⟨bytes', hbytes', hdirty⟩
    · rw [hnone] at hbytes
      cases hbytes
    · rw [hbytes', Option.some.injEq] at hbytes
      rw [← hbytes, hdirty] at hread
      cases hread

theorem good_finished
    (h : r.crashed c = { r.after r.new.length r.old.length with log := none }) : r.Good (r.crashed c) := by
  rw [h]
  refine r.good_of_idle (.inl rfl) (.inr ?_)
  exact r.replaced_after

/-- Out-of-order files with a whole log: if a new file and an old file are there, both are loaded. -/
theorem not_oldOrNew_of_both (horder : r.order = false) (hlogged : r.Logged d) {g : TSSPFile R}
    (hf : f ∈ r.new) (hfd : f.name.base ∈ d.dir r.order) (hg : g ∈ r.old) (hgd : g.name.base ∈ d.dir r.order) :
    ¬ r.OldOrNew d := by
  have hopen := hlogged.readable.openTable
  rw [← horder] at hopen
  rw [r.oldOrNew_iff_settled hopen]
  rintro (⟨-, hnew⟩ | ⟨-, hold⟩)
  · exact hnew f hf hfd
  · exact hold g hg hgd

/-- At the other crash points files are mixed or nothing is opened. -/
theorem safe_or_not (c : CrashPoint) : r.Safe c ∧ r.Good (r.crashed c) ∨ ¬ r.Safe c ∧ ¬ r.OldOrNew (r.crashed c) := by
  cases c with
  | log left =>
    have huntouched : r.Settled (r.crashed (.log left)) := by
      refine .inl ?_
      rw [crashed_log]
      exact r.untouched_disk
    cases left with
    | none =>
      refine .inl ⟨trivial, r.good_of_idle (.inl ?_) huntouched⟩
      rw [crashed_log]
      rfl
    | some k =>
      have hlog : (r.crashed (.log (some k))).log = some (r.info.logBytes.take k) := by
        rw [crashed_log]
        rfl
      rcases lt_or_ge k r.info.logBytes.length with hk | hk
      · rcases readCompactLogFile_cut r.fits r.info_suffix hk with ⟨hdirty, hnot⟩ | ⟨⟨e, he⟩, hmagic⟩
        · exact .inl ⟨fun hcut => hnot hcut.2, r.good_of_idle (.inr ⟨_, hlog, hdirty⟩) huntouched⟩
        · refine .inr ⟨not_not_intro ⟨hk, hmagic⟩, ?_⟩
          rintro ⟨names, hopen, -⟩
          have hproc : procCompactLog (r.crashed (.log (some k))) = none := by
            simp only [procCompactLog, hlog, he]
          rw [openTable, openOps, hproc] at hopen
          cases hopen
      · rw [take_of_length_le hk] at hlog
        refine .inl ⟨fun hcut => absurd hcut.1 hk.not_gt, ?_⟩
        refine r.good_of_logged ⟨hlog, fun f hf => .inr ?_⟩ fun _ => huntouched
        rw [crashed_log, ← r.new_path f hf]
        exact r.new_mem f hf
  | rename i =>
    rcases lt_or_ge i r.new.length with hi | hi
    · rw [r.crashed_rename hi, Safe]
      cases horder : r.order with
      | true => exact .inl ⟨.inl rfl, .inl ⟨horder, .inr (r.logged_after i 0)⟩⟩
      | false =>
        rcases Nat.eq_zero_or_pos i with rfl | hpos
        · refine .inl ⟨.inr (.inl rfl), r.good_of_logged (r.logged_after 0 0) fun _ => .inl ?_⟩
          show r.Untouched r.logged
          exact r.untouched_disk
        · have hnew : r.new[0] ∈ r.new.take i := mem_take_iff_getElem.mpr ⟨0, by omega, rfl⟩
          have hold := head_mem r.old_ne
          refine .inr ⟨by simp; omega, r.not_oldOrNew_of_both horder (r.logged_after i 0) (mem_of_mem_take hnew)
            (r.new_mem_after 0 hnew) hold ((r.old_mem_after i 0 hold).mpr ?_)⟩
          exact not_mem_nil
    · exact .inl ⟨.inr (.inr hi), r.good_finished
        (r.crashed_of_done rfl (fun j hj => if_neg (by omega)) (fun _ => rfl) (fun _ _ => rfl) rfl)⟩
  | delete i =>
    rcases lt_or_ge i r.old.length with hi | hi
    · rw [r.crashed_delete hi, Safe]
      cases horder : r.order with
      | true => exact .inl ⟨.inl rfl, .inl ⟨horder, .inr (r.logged_after _ i)⟩⟩
      | false =>
        have hlater : r.old[i] ∉ r.old.take i := by
          intro hmem
          obtain ⟨j, hj, hsame⟩ := mem_take_iff_getElem.mp hmem
          have hnodup : r.old.Nodup := r.old_paths.of_map _
          have := (hnodup.getElem_inj_iff).mp hsame
          omega
        have hold : r.old[i] ∈ r.old := getElem_mem hi
        have hnew := head_mem r.new_ne
        exact .inr ⟨by simp; omega, r.not_oldOrNew_of_both horder (r.logged_after _ i) hnew
          (r.new_mem_after i (by rwa [take_length])) hold ((r.old_mem_after _ i hold).mpr hlater)⟩
    · exact .inl ⟨.inr hi, r.good_finished
        (r.crashed_of_done rfl (fun _ _ => rfl) (fun _ => rfl) (fun j hj => if_neg (by omega)) rfl)⟩
  | removeLog =>
    rw [crashed_removeLog]
    exact .inl ⟨trivial, r.good_of_logged (r.logged_after _ _) fun _ => .inr r.replaced_after⟩
  | finished =>
    exact .inl ⟨trivial, r.good_finished (r.crashed_of_done rfl (fun _ _ => rfl) (fun _ => rfl) (fun _ _ => rfl) rfl)⟩

/-- **A crash leaves all old or all new files**, however often recovery is interrupted, exactly at the safe crash
points. -/
theorem oldOrNew_iff (c : CrashPoint) : (∀ attempts, r.OldOrNew (recovered (r.crashed c) attempts)) ↔ r.Safe c := by
  rcases r.safe_or_not c with ⟨hsafe, hgood⟩ | ⟨hnot, hmixed⟩
  · exact iff_of_true (fun attempts => (hgood.recovered attempts).oldOrNew) hsafe
  · exact iff_of_false (fun h => hmixed (h [])) hnot

/-! #### A crash between the renames and the removals -/

/-- An out-of-order file is replaced by one with a higher merge count. -/
def unorderedCall : CrashedCall ℕ where
  name := ascii ['c', 'p', 'u']
  order := false
  files := [⟨⟨1, 0, 0, 0⟩, TSSPFileName.base ⟨1, 0, 0, 0⟩, false, {10}⟩]
  old := [⟨⟨1, 0, 0, 0⟩, TSSPFileName.base ⟨1, 0, 0, 0⟩, false, {10}⟩]
  new := [⟨⟨1, 0, 1, 0⟩, tmpName (TSSPFileName.base ⟨1, 0, 1, 0⟩), false, {10}⟩]
  disk := ⟨none, [], [TSSPFileName.base ⟨1, 0, 0, 0⟩, tmpName (TSSPFileName.base ⟨1, 0, 1, 0⟩)]⟩
  old_ne := by decide
  new_ne := by decide
  old_path := by decide +kernel
  old_paths := by decide +kernel
  new_path := by decide +kernel
  new_paths := by decide +kernel
  fresh := by decide +kernel
  old_mem := by decide +kernel
  new_mem := by decide +kernel
  new_not_mem := by decide +kernel
  log_none := rfl
  fits := ⟨by decide +kernel, by decide +kernel, by decide +kernel, by decide +kernel⟩

/-- After a crash before the removal of the old file both files are loaded. -/
theorem unordered_mixture : openTable (unorderedCall.crashed (.delete 0)) false =
    some [TSSPFileName.base ⟨1, 0, 1, 0⟩, TSSPFileName.base ⟨1, 0, 0, 0⟩] := by
  decide +kernel

end CrashedCall

end GeminiTS.Immutable
