import GeminiTS.Lib.Extract
import GeminiTS.Lib.Overlay
import GeminiTS.Lib.StableSort

/-!
# MergeRun — merging out-of-order files, and what a reader sees

`BuildMergeContext` (`engine/immutable/merge_util.go`) selects sets of out-of-order files of a
measurement by size and merge level; `mergeOutOfOrder` (`merge_out_of_order.go`) executes the
selected contexts one after another. A context is either merged among itself into a file with the
sequence of its first file, or merged into the ordered files and deleted.

What a file holds is a table over series and times.

* `MergeRun.seen_unchanged_iff` — a run keeps every value in every state it reaches exactly when all
  its steps are safe.
* `MergeRun.forced_seen_unchanged` — a forced run into the ordered files keeps every value.
-/

namespace GeminiTS

open Lib Table

variable {F V : Type*}

/-- An out-of-order file: its sequence, its merge level and its rows by series and time. -/
structure StoredFile (F V : Type*) where
  seq : ℕ
  merge : ℕ
  data : Table (ℕ × ℤ) F V

/-- What a file is found by. -/
def StoredFile.name (f : StoredFile F V) : ℕ × ℕ := (f.seq, f.merge)

/-- A file with its size. -/
structure OutOfOrderFile (F V : Type*) extends StoredFile F V where
  size : ℤ

/-- The part of the store configuration that merging reads. -/
structure MergeConfig where
  maxUnorderedFileSize : ℤ
  maxUnorderedFileNumber : ℤ
  maxMergeSelfLevel : ℕ
  mergeSelfOnly : Bool
  unorderedOnly : Bool
  tsspToParquetLevel : ℕ
deriving DecidableEq

/-- The files selected for one merge. -/
structure MergeContext where
  level : ℕ
  files : List (ℕ × ℕ)
  size : ℤ
deriving DecidableEq

namespace MergeContext

/-- `NewMergeContext`. -/
def new (level : ℕ) : MergeContext := ⟨level, [], 0⟩

def updateLevel (l : ℕ) (ctx : MergeContext) : MergeContext :=
  if ctx.level < l then { ctx with level := l } else ctx

def addUnordered (f : OutOfOrderFile F V) (ctx : MergeContext) : MergeContext :=
  { ctx with files := ctx.files ++ [f.name], size := int64 (ctx.size + f.size) }

def unorderedLen (ctx : MergeContext) : ℕ := ctx.files.length

def limited (conf : MergeConfig) (ctx : MergeContext) : Bool :=
  ctx.unorderedLen ≥ conf.maxUnorderedFileNumber || ctx.size > conf.maxUnorderedFileSize

def mergeSelf (conf : MergeConfig) (ctx : MergeContext) : Bool :=
  conf.mergeSelfOnly || conf.unorderedOnly ||
    (conf.maxMergeSelfLevel > ctx.level && conf.maxUnorderedFileSize > ctx.size && ctx.unorderedLen > 1)

def toLevel (ctx : MergeContext) : ℕ := ctx.level + 1

end MergeContext

/-! ### Building contexts -/

section Build

variable (conf : MergeConfig)

/-- `LevelMergeFileNum`, and its default above the last level listed. -/
def levelMergeFileNum (level : ℕ) : ℕ := ([8, 8] : List ℕ).getD level 4

/-- The loop of `buildLevelMergeContext`: runs of files of one level. -/
def levelLoop (level : ℕ) : List (OutOfOrderFile F V) → MergeContext → List MergeContext
  | [], _ => []
  | f :: files, ctx =>
    if f.size ≥ conf.maxUnorderedFileSize ∧ ctx.unorderedLen = 0 then levelLoop level files ctx
    else if f.merge ≠ level then
      levelLoop level files (if ctx.unorderedLen > 0 then MergeContext.new level else ctx)
    else
      let ctx := ctx.addUnordered f
      if ctx.unorderedLen ≥ levelMergeFileNum level then
        ctx :: levelLoop level files (MergeContext.new level)
      else levelLoop level files ctx

def buildLevelMergeContext (level : ℕ) (files : List (OutOfOrderFile F V)) : List MergeContext :=
  levelLoop conf level files (MergeContext.new level)

/-- `MaxMerged`. -/
def maxMerged (files : List (OutOfOrderFile F V)) : ℕ := files.foldl (fun m f => max m f.merge) 0

def buildUnorderedOnlyMergeContext (files : List (OutOfOrderFile F V)) : List MergeContext :=
  (List.range (maxMerged files + 1)).flatMap fun level => buildLevelMergeContext conf level files

/-- The loop of `buildFullMergeContext`; the last context is kept if it has a file. -/
def fullLoop : List (OutOfOrderFile F V) → MergeContext → List MergeContext
  | [], ctx => if ctx.unorderedLen > 0 then [ctx] else []
  | f :: files, ctx =>
    if ctx.unorderedLen = 0 ∧ f.size ≥ conf.maxUnorderedFileSize then fullLoop files ctx
    else
      let ctx := (ctx.updateLevel f.merge).addUnordered f
      if ctx.limited conf then ctx :: fullLoop files (MergeContext.new 0)
      else fullLoop files ctx

/-- All files below the level at which files become Parquet files. -/
def buildLowLevelFullMergeContext (maxLevel : ℕ) (files : List (OutOfOrderFile F V)) : MergeContext :=
  (files.filter fun f => f.merge < maxLevel).foldl (fun ctx f => ctx.addUnordered f) (MergeContext.new maxLevel)

def buildFullMergeContext (files : List (OutOfOrderFile F V)) : List MergeContext :=
  let low := buildLowLevelFullMergeContext conf.tsspToParquetLevel files
  if conf.tsspToParquetLevel ≠ 0 ∧ low.unorderedLen > 0 then [low]
  else fullLoop conf files (MergeContext.new 0)

/-- The loop of `buildNormalMergeContext`. -/
def normalLoop : List (OutOfOrderFile F V) → MergeContext → MergeContext
  | [], ctx => ctx
  | f :: files, ctx =>
    let ctx := (ctx.updateLevel f.merge).addUnordered f
    if ctx.limited conf then ctx else normalLoop files ctx

def buildNormalMergeContext (files : List (OutOfOrderFile F V)) : MergeContext :=
  normalLoop conf files (MergeContext.new 0)

/-- `buildMergeContext` with `BuildMergeContext`; `nearly` is whether the last merge of the
measurement is recent. -/
def buildMergeContext (nearly full force : Bool) (files : List (OutOfOrderFile F V)) : List MergeContext :=
  if force then [buildNormalMergeContext conf files]
  else if files.isEmpty then []
  else if full then buildFullMergeContext conf files
  else if conf.mergeSelfOnly || conf.unorderedOnly then buildUnorderedOnlyMergeContext conf files
  else
    let ret := (List.range conf.maxMergeSelfLevel).flatMap fun level =>
      buildLevelMergeContext conf level files
    if ret.isEmpty && (maxMerged files ≥ conf.maxMergeSelfLevel || !nearly) then
      [buildNormalMergeContext conf files]
    else ret

end Build

/-! ### Executing contexts -/

/-- The out-of-order files in the order of their sequences, and the ordered data if there are
ordered files. -/
structure MergeState (F V : Type*) where
  unordered : List (StoredFile F V)
  ordered : Option (Table (ℕ × ℤ) F V)

namespace MergeState

variable (st : MergeState F V)

/-- What a reader sees: the out-of-order files, newest first, over the ordered data. -/
def seen : Table (ℕ × ℤ) F V := (Table.newest (st.unordered.map StoredFile.data)).overlay (st.ordered.getD Table.empty)

/-- The file belongs to the context. -/
def isSelected (ctx : MergeContext) (f : StoredFile F V) : Bool := ctx.files.contains f.name

/-- The files of the context laid over each other. -/
def union (ctx : MergeContext) : Table (ℕ × ℤ) F V :=
  Table.newest ((st.unordered.filter (isSelected ctx)).map StoredFile.data)

/-- Merging the files of a context among themselves: one file with the sequence of the first takes
their place (`mergeSelf`, `ReplaceFiles`). -/
def mergeSelf (ctx : MergeContext) : MergeState F V :=
  if ctx.unorderedLen ≤ 1 then st
  else
    match st.unordered.filter (isSelected ctx) with
    | [] => st
    | first :: _ =>
      { st with
        unordered := stableSort StoredFile.seq ((st.unordered.filter fun f => !isSelected ctx f) ++
            [⟨first.seq, ctx.toLevel, st.union ctx⟩]) }

/-- Merging the files of a context into the ordered files, if there are any. -/
def merge (ctx : MergeContext) : MergeState F V :=
  match st.ordered with
  | none => st
  | some ordered =>
    { unordered := st.unordered.filter fun f => !isSelected ctx f
      ordered := some ((st.union ctx).overlay ordered) }

/-- All files of the context are there (`getFilesByPath`). -/
def found (ctx : MergeContext) : Bool := ctx.files.all fun name => st.unordered.any fun f => f.name = name

def execMergeContext (conf : MergeConfig) (ctx : MergeContext) : MergeState F V :=
  if !st.found ctx then st
  else if ctx.mergeSelf conf then st.mergeSelf ctx
  else st.merge ctx

end MergeState

/-! ### The values a reader sees -/

open List

namespace MergeState

/-- Files have distinct sequences, in ascending order. -/
def Ascending (st : MergeState F V) : Prop := st.unordered.Pairwise fun a b => a.seq < b.seq

/-- The newest value in a list of files. -/
def value (files : List (StoredFile F V)) (k : ℕ × ℤ) (f : F) : Option V :=
  Table.cell (Table.newest (files.map StoredFile.data)) k f

/-- Where a file outside the context holds a value, the newest file holding one has the same
value. -/
def Unhidden (ctx : MergeContext) (files : List (StoredFile F V)) : Prop :=
  ∀ k f v, value (files.filter fun g => !isSelected ctx g) k f = some v → value files k f = some v

/-- The files after the first file of the context. -/
def afterFirst (st : MergeState F V) (ctx : MergeContext) : List (StoredFile F V) :=
  (st.unordered.dropWhile fun g => !isSelected ctx g).tail

/-- What a step must meet to keep all values. -/
def StepSafe (conf : MergeConfig) (st : MergeState F V) (ctx : MergeContext) : Prop := st.found ctx = true →
    if ctx.mergeSelf conf then Unhidden ctx (st.afterFirst ctx)
    else st.ordered.isSome → Unhidden ctx st.unordered

theorem cell_seen (st : MergeState F V) (k : ℕ × ℤ) (f : F) : cell st.seen k f =
      (value st.unordered k f).or (cell (st.ordered.getD empty) k f) :=
  cell_overlay _ _ _ _

theorem value_append (l1 l2 : List (StoredFile F V)) (k : ℕ × ℤ) (f : F) :
    value (l1 ++ l2) k f = (value l2 k f).or (value l1 k f) := by
  rw [value, map_append, newest_append, cell_overlay]
  rfl

theorem value_cons (g : StoredFile F V) (l : List (StoredFile F V)) (k : ℕ × ℤ) (f : F) :
    value (g :: l) k f = (value l k f).or (cell g.data k f) := by
  rw [value, map_cons, newest_cons, cell_overlay]
  rfl

variable {st : MergeState F V} {ctx : MergeContext}

theorem seen_merge_iff {ordered : Table (ℕ × ℤ) F V} (ho : st.ordered = some ordered) :
    (∀ k f, cell (st.merge ctx).seen k f = cell st.seen k f) ↔ Unhidden ctx st.unordered := by
  refine forall_congr' fun k => forall_congr' fun f => ?_
  rw [cell_seen, cell_seen, merge, ho]
  simp only [Option.getD_some, cell_overlay]
  exact cell_newest_split_eq_iff StoredFile.data (isSelected ctx) st.unordered k f _

variable {others : List (StoredFile F V)} {first : StoredFile F V}

/-- The files before the first file of the context, and that file. -/
theorem exists_first (h : st.unordered.filter (isSelected ctx) = first :: others) :
    ∃ older, st.unordered = older ++ first :: st.afterFirst ctx ∧
      (∀ g ∈ older, isSelected ctx g = false) ∧ isSelected ctx first = true := by
  obtain ⟨older, after, hsplit, holder, hfirst, -⟩ := filter_eq_cons_iff.mp h
  have holder' : ∀ g ∈ older, isSelected ctx g = false := by simpa using holder
  have hafter : st.afterFirst ctx = after := by
    rw [afterFirst, hsplit, dropWhile_append_of_pos fun g hg => by simp [holder' g hg],
      dropWhile_cons_of_neg (by simp [hfirst]), tail_cons]
  exact ⟨older, hafter ▸ hsplit, holder', hfirst⟩

@[simp] theorem mergeSelf_ordered (st : MergeState F V) (ctx : MergeContext) :
    (st.mergeSelf ctx).ordered = st.ordered := by
  unfold mergeSelf
  split_ifs
  · rfl
  · split <;> rfl

section

variable (hasc : st.Ascending) (h : st.unordered.filter (isSelected ctx) = first :: others)
  (hlen : 1 < ctx.unorderedLen)

include hasc h hlen

theorem unordered_mergeSelf :
    ∃ older, st.unordered = older ++ first :: st.afterFirst ctx ∧ (∀ g ∈ older, isSelected ctx g = false) ∧
      (st.mergeSelf ctx).unordered = older ++ ⟨first.seq, ctx.toLevel, st.union ctx⟩ ::
        (st.afterFirst ctx).filter (fun g => !isSelected ctx g) ∧
      (st.mergeSelf ctx).Ascending := by
  obtain ⟨older, hsplit, holder, hfirst⟩ := exists_first h
  have hrest : (st.unordered.filter fun g => !isSelected ctx g) =
      older ++ (st.afterFirst ctx).filter fun g => !isSelected ctx g := by
    rw [hsplit, filter_append, filter_cons_of_neg (by simp [hfirst]),
      filter_eq_self.mpr fun g hg => by simp [holder g hg]]
  have hsorted : (older ++ ⟨first.seq, ctx.toLevel, st.union ctx⟩ ::
      (st.afterFirst ctx).filter fun g => !isSelected ctx g).Pairwise fun a b => a.seq < b.seq := by
    unfold Ascending at hasc
    rw [hsplit, pairwise_append, pairwise_cons] at hasc
    obtain ⟨hold, ⟨hfirstlt, hafter⟩, hcross⟩ := hasc
    refine pairwise_append.mpr ⟨hold, pairwise_cons.mpr ⟨?_, hafter.filter _⟩, ?_⟩
    · exact fun g hg => hfirstlt g (mem_filter.mp hg).1
    · intro a ha b hb
      rcases mem_cons.mp hb with rfl | hb
      · exact hcross a ha first mem_cons_self
      · exact hcross a ha b (mem_cons_of_mem _ (mem_filter.mp hb).1)
  have hself : (st.mergeSelf ctx).unordered = older ++ ⟨first.seq, ctx.toLevel, st.union ctx⟩ ::
      (st.afterFirst ctx).filter fun g => !isSelected ctx g := by
    rw [mergeSelf, if_neg (by omega), h]
    refine stableSort_eq ?_ hsorted
    rw [hrest, append_assoc]
    exact List.Perm.append_left _ (perm_append_singleton _ _)
  refine ⟨older, hsplit, holder, hself, ?_⟩
  unfold Ascending
  rw [hself]
  exact hsorted

/-- Merging the context among itself: only the files after its first file matter. -/
theorem seen_mergeSelf_iff :
    (∀ k f, cell (st.mergeSelf ctx).seen k f = cell st.seen k f) ↔ Unhidden ctx (st.afterFirst ctx) := by
  obtain ⟨older, hsplit, holder, hself, _⟩ := unordered_mergeSelf hasc h hlen
  have hunion : ∀ k f, cell (st.union ctx) k f =
      (value ((st.afterFirst ctx).filter (isSelected ctx)) k f).or (cell first.data k f) := by
    intro k f
    have hsel : st.unordered.filter (isSelected ctx) = first :: (st.afterFirst ctx).filter (isSelected ctx) := by
      obtain ⟨_, _, _, hfirst⟩ := exists_first h
      rw [hsplit, filter_append, filter_cons_of_pos hfirst,
        filter_eq_nil_iff.mpr fun g hg => by simp [holder g hg], nil_append]
    rw [union, hsel]
    exact value_cons _ _ k f
  refine forall_congr' fun k => forall_congr' fun f => ?_
  rw [cell_seen, cell_seen, hself, hsplit, value_append, value_append, value_cons, value_cons, hunion,
    mergeSelf_ordered]
  simp only [Option.or_assoc]
  exact cell_newest_split_eq_iff StoredFile.data (isSelected ctx) (st.afterFirst ctx) k f _

end

theorem Ascending.filter_length_le (hasc : st.Ascending) (hlen : ctx.unorderedLen ≤ 1) :
    (st.unordered.filter (isSelected ctx)).length ≤ 1 := by
  have hnodup : ((st.unordered.filter (isSelected ctx)).map StoredFile.name).Nodup :=
    pairwise_map.mpr ((hasc.filter _).imp fun hlt heq => hlt.ne (congrArg Prod.fst heq))
  have hsub : (st.unordered.filter (isSelected ctx)).map StoredFile.name ⊆ ctx.files := by
    intro name hname
    obtain ⟨g, hg, rfl⟩ := mem_map.mp hname
    simpa [isSelected] using (mem_filter.mp hg).2
  have hle := (subperm_of_subset hnodup hsub).length_le
  rw [length_map] at hle
  exact hle.trans hlen

theorem unhidden_of_none {files : List (StoredFile F V)} (h : ∀ g ∈ files, isSelected ctx g = false) :
    Unhidden ctx files := by
  intro k f v hv
  rwa [filter_eq_self.mpr fun g hg => by simp [h g hg]] at hv

theorem mem_of_mem_afterFirst {g : StoredFile F V} (h : g ∈ st.afterFirst ctx) : g ∈ st.unordered :=
  (dropWhile_sublist _).subset (mem_of_mem_tail h)

/-- A context of at most one file leaves nothing unselected that its first file could jump over. -/
theorem unhidden_of_small (hasc : st.Ascending) (hlen : ctx.unorderedLen ≤ 1) : Unhidden ctx (st.afterFirst ctx) := by
  have hle := hasc.filter_length_le hlen
  refine unhidden_of_none fun g hg => ?_
  cases h : st.unordered.filter (isSelected ctx) with
  | nil => simpa using filter_eq_nil_iff.mp h g (mem_of_mem_afterFirst hg)
  | cons first others =>
    obtain ⟨older, hsplit, _, hfirst⟩ := exists_first h
    rw [hsplit, filter_append, filter_cons_of_pos hfirst, length_append, length_cons] at hle
    have hnil : ((st.afterFirst ctx).filter (isSelected ctx)).length = 0 := by omega
    simpa using filter_eq_nil_iff.mp (eq_nil_of_length_eq_zero hnil) g hg

theorem filter_ne_nil (hfound : st.found ctx = true) (hlen : 1 < ctx.unorderedLen) :
    st.unordered.filter (isSelected ctx) ≠ [] := by
  obtain ⟨name, hname⟩ := exists_mem_of_length_pos (Nat.lt_of_succ_lt hlen)
  have hmem := all_eq_true.mp hfound name hname
  obtain ⟨g, hg, hgn⟩ := any_eq_true.mp hmem
  refine ne_nil_of_mem (mem_filter.mpr ⟨hg, ?_⟩)
  simpa [isSelected, of_decide_eq_true hgn] using hname

/-- **One context keeps every value exactly when the step is safe**, and it leaves the files in the order of their
sequences. -/
theorem exec_spec (conf : MergeConfig) (hasc : st.Ascending) : (st.execMergeContext conf ctx).Ascending ∧
    ((∀ k f, cell (st.execMergeContext conf ctx).seen k f = cell st.seen k f) ↔ StepSafe conf st ctx) := by
  unfold StepSafe execMergeContext
  by_cases hfound : st.found ctx = true
  · simp only [hfound, Bool.not_true, Bool.false_eq_true, if_false, forall_const]
    by_cases hself : ctx.mergeSelf conf = true
    · simp only [hself, if_true]
      by_cases hlen : 1 < ctx.unorderedLen
      · obtain ⟨first, others, h⟩ := exists_cons_of_ne_nil (filter_ne_nil hfound hlen)
        obtain ⟨_, _, _, _, hself⟩ := unordered_mergeSelf hasc h hlen
        exact ⟨hself, seen_mergeSelf_iff hasc h hlen⟩
      · rw [mergeSelf, if_pos (by omega)]
        exact ⟨hasc, fun _ => unhidden_of_small hasc (by omega), fun _ _ _ => rfl⟩
    · simp only [hself]
      cases ho : st.ordered with
      | none => simpa [merge, ho] using hasc
      | some ordered =>
        refine ⟨?_, by simpa using seen_merge_iff ho⟩
        rw [merge, ho]
        exact hasc.filter _
  · simpa [hfound] using hasc

/-- Where the files of the context come before all others, what is left alone is newer than what is moved. -/
theorem unhidden_of_first {chosen rest : List (StoredFile F V)} (hchosen : ∀ g ∈ chosen, isSelected ctx g = true)
    (hrest : ∀ g ∈ rest, isSelected ctx g = false) : Unhidden ctx (chosen ++ rest) := by
  intro k f v hv
  rw [filter_append, filter_eq_nil_iff.mpr fun g hg => by simp [hchosen g hg],
    filter_eq_self.mpr fun g hg => by simp [hrest g hg], nil_append] at hv
  rw [value_append, hv, Option.some_or]

end MergeState

/-- A run over the out-of-order files of a measurement, in ascending order of distinct sequences. -/
structure MergeRun (F V : Type*) where
  conf : MergeConfig
  nearly : Bool
  full : Bool
  force : Bool
  files : List (OutOfOrderFile F V)
  ordered : Option (Table (ℕ × ℤ) F V)
  ascending : files.Pairwise fun a b => a.seq < b.seq

namespace MergeRun

variable (r : MergeRun F V)

def contexts : List MergeContext := buildMergeContext r.conf r.nearly r.full r.force r.files

def start : MergeState F V := ⟨r.files.map OutOfOrderFile.toStoredFile, r.ordered⟩

/-- The state after the first `n` contexts. -/
def state (n : ℕ) : MergeState F V := (r.contexts.take n).foldl (fun st ctx => st.execMergeContext r.conf ctx) r.start

@[simp] theorem state_zero : r.state 0 = r.start := rfl

theorem state_succ {n : ℕ} {ctx : MergeContext} (h : r.contexts[n]? = some ctx) :
    r.state (n + 1) = (r.state n).execMergeContext r.conf ctx := by
  rw [state, take_add_one, h, foldl_append]
  rfl

theorem state_ascending (n : ℕ) : (r.state n).Ascending := by
  induction n with
  | zero => exact pairwise_map.mpr r.ascending
  | succ n ih =>
    cases h : r.contexts[n]? with
    | none =>
      rw [state, take_add_one, h, Option.toList_none, append_nil]
      exact ih
    | some ctx =>
      rw [state_succ r h]
      exact (MergeState.exec_spec r.conf ih).1

theorem seen_state (hsafe : ∀ n ctx, r.contexts[n]? = some ctx → MergeState.StepSafe r.conf (r.state n) ctx)
    (n : ℕ) (hn : n ≤ r.contexts.length) (k : ℕ × ℤ) (f : F) :
    cell (r.state n).seen k f = cell r.start.seen k f := by
  induction n with
  | zero => rfl
  | succ n ih =>
    have hctx : r.contexts[n]? = some r.contexts[n] := getElem?_eq_getElem hn
    have hstep := (MergeState.exec_spec r.conf (r.state_ascending n)).2.mpr (hsafe n _ hctx)
    rw [state_succ r hctx, hstep k f]
    exact ih (Nat.le_of_succ_le hn)

/-- **A run keeps every value in every state it reaches exactly when all its steps are safe.** -/
theorem seen_unchanged_iff : (∀ n ≤ r.contexts.length, ∀ k f,
      Table.cell (r.state n).seen k f = Table.cell r.start.seen k f) ↔
      ∀ n ctx, r.contexts[n]? = some ctx → MergeState.StepSafe r.conf (r.state n) ctx := by
  refine ⟨fun hseen n ctx hctx => ?_, fun hsafe n hn k f => r.seen_state hsafe n hn k f⟩
  have hn : n < r.contexts.length := (List.getElem?_eq_some_iff.mp hctx).1
  rw [← (MergeState.exec_spec r.conf (r.state_ascending n)).2, ← state_succ r hctx]
  exact fun k f => (hseen (n + 1) hn k f).trans (hseen n hn.le k f).symm

/-- A full run over two files that hold the same point, the older one above the size limit. -/
def oversizedFirst : MergeRun ℕ ℕ where
  conf := ⟨100, 8, 0, false, false, 0⟩
  nearly := false
  full := true
  force := false
  files := [⟨⟨1, 0, fun _ => some fun _ => some 10⟩, 150⟩, ⟨⟨2, 0, fun _ => some fun _ => some 20⟩, 10⟩]
  ordered := some Table.empty
  ascending := by decide

/-- The older file is passed over, the newer one is moved below it, and the overwritten value is
back. -/
theorem oversizedFirst_revives : oversizedFirst.contexts.length = 1 ∧
      Table.cell oversizedFirst.start.seen (1, 5) 0 = some 20 ∧
      Table.cell (oversizedFirst.state 1).seen (1, 5) 0 = some 10 := by
  decide

/-! ### Forced runs -/

theorem normalLoop_files (conf : MergeConfig) (files : List (OutOfOrderFile F V)) (ctx : MergeContext) :
    ∃ n, (normalLoop conf files ctx).files = ctx.files ++ (files.take n).map fun f => f.name := by
  induction files generalizing ctx with
  | nil => exact ⟨0, by simp [normalLoop]⟩
  | cons f files ih =>
    have hone : ((ctx.updateLevel f.merge).addUnordered f).files = ctx.files ++ [f.name] := by
      unfold MergeContext.updateLevel MergeContext.addUnordered
      split_ifs <;> rfl
    rw [normalLoop]
    split_ifs
    · exact ⟨1, by simpa using hone⟩
    · obtain ⟨n, hn⟩ := ih ((ctx.updateLevel f.merge).addUnordered f)
      exact ⟨n + 1, by rw [hn, hone]; simp⟩

/-- **A forced run into the ordered files keeps every value**: its context is a front part of the files. -/
theorem forced_seen_unchanged (hforce : r.force = true)
    (hself : (buildNormalMergeContext r.conf r.files).mergeSelf r.conf = false) (n : ℕ) (hn : n ≤ r.contexts.length)
    (k : ℕ × ℤ) (f : F) :
    cell (r.state n).seen k f = cell r.start.seen k f := by
  have hcontexts : r.contexts = [buildNormalMergeContext r.conf r.files] := by
    rw [contexts, buildMergeContext, if_pos hforce]
  refine r.seen_state ?_ n hn k f
  intro i ctx hctx
  rw [hcontexts, getElem?_singleton] at hctx
  obtain ⟨m, hm⟩ := normalLoop_files r.conf r.files (MergeContext.new 0)
  split_ifs at hctx with hi
  subst hi
  cases hctx
  have hfiles : (r.state 0).unordered = (r.files.take m).map OutOfOrderFile.toStoredFile ++
      (r.files.drop m).map OutOfOrderFile.toStoredFile := by
    rw [← map_append, take_append_drop]
    rfl
  have hselected : ∀ g : StoredFile F V, MergeState.isSelected (buildNormalMergeContext r.conf r.files) g = true ↔
        ∃ a ∈ r.files.take m, a.name = g.name := by
    intro g
    rw [MergeState.isSelected, buildNormalMergeContext, hm]
    simp [MergeContext.new, -map_take]
  intro _
  rw [hself, if_neg Bool.false_ne_true, hfiles]
  intro _
  refine MergeState.unhidden_of_first ?_ ?_
  · intro g hg
    obtain ⟨a, ha, rfl⟩ := mem_map.mp hg
    exact (hselected _).mpr ⟨a, ha, rfl⟩
  · intro g hg
    obtain ⟨b, hb, rfl⟩ := mem_map.mp hg
    rw [← Bool.not_eq_true, hselected]
    rintro ⟨a, ha, hname⟩
    -- an earlier file has a smaller sequence
    have hasc := r.ascending
    rw [← take_append_drop m r.files] at hasc
    exact ((pairwise_append.mp hasc).2.2 a ha b hb).ne (congrArg Prod.fst hname)

/-- The run of `oversizedFirst`, forced. -/
theorem oversizedFirst_forced :
    Table.cell (({ oversizedFirst with force := true } : MergeRun ℕ ℕ).state 1).seen (1, 5) 0 = some 20 :=
  (forced_seen_unchanged _ rfl (by decide) 1 (by decide) (1, 5) 0).trans (by decide)

end MergeRun

end GeminiTS
