import GeminiTS.Lib.Extreme
import GeminiTS.Meta.Catalog

/-!
# SchemaClean — schemas that forget the fields of removed shard groups

A field of a schema has the latest end of the shard groups it was registered for, cut to its high 32 bits. When shard
groups are removed, the fields that do not end after them go (`lib/util/lifted/influx/meta/data.go`, `measurement.go`).
A snapshot keeps no ends.

* `SchemaState.inUse_of_run` — no field in use goes if groups are removed oldest first and nothing is restored.
-/

namespace GeminiTS.Catalog

open Lib List Function

/-! ### The code -/

structure SchemaVal where
  typ : ℕ
  endTime : ℤ
  deriving DecidableEq

abbrev CleanSchema := String → Option SchemaVal

structure FieldSchema where
  fieldName : String
  fieldType : ℕ
  endTime : ℤ

def timeReserveHigh32 (time : ℤ) : ℤ := time / 2 ^ 32

/-- The loop of `UpdateSchema`. The flag is set at a conflict of types. -/
def updateSchema (schemaCleanEn : Bool) : CleanSchema → List FieldSchema → CleanSchema × Bool
  | schema, [] => (schema, false)
  | schema, f :: fs =>
    match schema f.fieldName with
    | none => updateSchema schemaCleanEn
        (update schema f.fieldName (some ⟨f.fieldType, if schemaCleanEn then f.endTime else 0⟩)) fs
    | some val =>
      if val.typ ≠ f.fieldType then (schema, true)
      else if schemaCleanEn ∧ val.endTime < f.endTime then
        updateSchema schemaCleanEn (update schema f.fieldName (some ⟨f.fieldType, f.endTime⟩)) fs
      else updateSchema schemaCleanEn schema fs

/-- A measurement; only those of the row store (`TSSTORE`) are cleaned. -/
structure MstSchema where
  tsStore : Bool
  schema : CleanSchema

def MstSchema.schemaClean (sgEndTime : ℤ) (msti : MstSchema) : MstSchema :=
  if msti.tsStore then
    { msti with schema := fun name =>
        (msti.schema name).filter fun val => ¬ val.endTime ≤ timeReserveHigh32 sgEndTime }
  else msti

def CleanSchema.snapshotMarshal (cs : CleanSchema) (name : String) : Option ℕ := (cs name).map (·.typ)

def unmarshalCleanSchema (pb : String → Option ℕ) : CleanSchema := fun name => (pb name).map (⟨·, 0⟩)

/-- A shard group, with the measurements and fields that have been written to it. -/
structure WrittenGroup where
  info : ShardGroupInfo
  written : List (String × String)

structure SchemaState where
  groups : List WrittenGroup
  measurements : String → Option MstSchema

/-- The group is deleted and has no shard left. -/
def WrittenGroup.expired (g : WrittenGroup) : Bool := g.info.deletedAt.isSome && g.info.canDelete

def WrittenGroup.mark (id : ℕ) (g : WrittenGroup) : Option WrittenGroup :=
  (markShards id g.info).map fun info => { g with info := info }

/-- The latest end, or 0. -/
def lastEnd (gs : List WrittenGroup) : ℤ := extreme (· > ·) 0 (gs.map (·.info.endTime))

namespace SchemaState

variable (s : SchemaState)

/-- `pruneShardGroups` with the cleaning of the schemas. -/
def prune (id : ℕ) : Option SchemaState :=
  (s.groups.mapM (WrittenGroup.mark id)).map fun gs =>
    let removed := gs.filter (·.expired)
    ⟨gs.filter (! ·.expired),
      if removed.isEmpty then s.measurements
      else fun mst => (s.measurements mst).map (·.schemaClean (lastEnd removed))⟩

/-- A write to the group at a position registers its fields, if their types fit. -/
def write (pos : ℕ) (mst : String) (fields : List (String × ℕ)) : SchemaState :=
  match s.groups[pos]?, s.measurements mst with
  | some g, some msti =>
    let r := updateSchema true msti.schema (fields.map fun f => ⟨f.1, f.2, timeReserveHigh32 g.info.endTime⟩)
    ⟨if r.2 then s.groups else s.groups.set pos { g with written := g.written ++ fields.map fun f => (mst, f.1) },
      update s.measurements mst (some { msti with schema := r.1 })⟩
  | _, _ => s

def deleteGroup (id : ℕ) (deletedAt : Option ℤ) : SchemaState :=
  { s with groups := s.groups.modify (s.groups.findIdx (·.info.id = id)) fun g =>
      { g with info := { g.info with deletedAt := deletedAt } } }

def createGroup (sg : ShardGroupInfo) : SchemaState :=
  { s with groups := stableSort (fun g => toLex (g.info.endTime, g.info.startTime)) (s.groups ++ [⟨sg, []⟩]) }

/-- A snapshot is taken and restored. -/
def restore : SchemaState :=
  { s with measurements := fun mst => (s.measurements mst).map fun msti =>
      { msti with schema := unmarshalCleanSchema msti.schema.snapshotMarshal } }

end SchemaState

inductive SchemaEvent
  | createGroup (sg : ShardGroupInfo)
  | write (pos : ℕ) (mst : String) (fields : List (String × ℕ))
  | deleteGroup (id : ℕ) (deletedAt : Option ℤ)
  | prune (id : ℕ)
  | restore

namespace SchemaState

def step (s : SchemaState) : SchemaEvent → Option SchemaState
  | .createGroup sg => some (s.createGroup sg)
  | .write pos mst fields => some (s.write pos mst fields)
  | .deleteGroup id deletedAt => some (s.deleteGroup id deletedAt)
  | .prune id => s.prune id
  | .restore => some s.restore

/-! ### Fields in use -/

/-- What has been written to a group is in the schemas. -/
def InUse (s : SchemaState) : Prop :=
  ∀ g ∈ s.groups, ∀ p ∈ g.written, (s.measurements p.1).any fun msti => (msti.schema p.2).isSome

instance (s : SchemaState) : Decidable s.InUse := inferInstanceAs (Decidable (∀ g ∈ s.groups, ∀ p ∈ g.written, _))

/-- A measurement of the row store has been written to the group. -/
def uses (s : SchemaState) (g : WrittenGroup) : Bool := g.written.any fun p => (s.measurements p.1).any (·.tsStore)

def goes (id : ℕ) (g : WrittenGroup) : Bool := (g.mark id).any (·.expired)

/-- Groups that go end before groups that stay, and nothing is restored that has an end. -/
def safe (s : SchemaState) : SchemaEvent → Bool
  | .prune id => decide <| ∀ g ∈ s.groups, ∀ g' ∈ s.groups, goes id g → ¬ goes id g' → s.uses g' →
      timeReserveHigh32 (max 0 g.info.endTime) < timeReserveHigh32 g'.info.endTime
  | .restore => decide <| ∀ g ∈ s.groups, s.uses g → timeReserveHigh32 g.info.endTime ≤ 0
  | _ => true

/-- All events of a list are safe when they come. -/
def safeRun (s : SchemaState) : List SchemaEvent → Bool
  | [] => true
  | e :: es => s.safe e && (s.step e).all (·.safeRun es)

/-- The field is in the schema, with an end not before the given one if the schema is cleaned. -/
def Holds (measurements : String → Option MstSchema) (endTime : ℤ) (p : String × String) : Prop :=
  ∃ msti val, measurements p.1 = some msti ∧ msti.schema p.2 = some val ∧
    (msti.tsStore → timeReserveHigh32 endTime ≤ val.endTime)

def Registered (s : SchemaState) : Prop := ∀ g ∈ s.groups, ∀ p ∈ g.written, Holds s.measurements g.info.endTime p

end SchemaState

section Update

variable {schema : CleanSchema} {fs : List FieldSchema} {name : String}

/-- An update keeps fields and does not put them to an earlier end. -/
theorem le_updateSchema {val : SchemaVal} (h : schema name = some val) :
    ∃ val', (updateSchema true schema fs).1 name = some val' ∧ val.endTime ≤ val'.endTime := by
  fun_induction updateSchema true schema fs generalizing val with
  | case1 schema | case3 schema f fs old hf hne => exact ⟨val, h, le_rfl⟩
  | case2 schema f fs hf ih =>
    refine ih ?_
    rw [update_of_ne (by rintro rfl; simp [hf] at h), h]
  | case4 schema f fs old hf heq hlt ih =>
    by_cases hname : name = f.fieldName
    · subst hname
      obtain rfl := Option.some.inj (hf.symm.trans h)
      obtain ⟨val', hval', hle⟩ := ih (update_self ..)
      exact ⟨val', hval', hlt.2.le.trans hle⟩
    · exact ih (by rw [update_of_ne hname, h])
  | case5 schema f fs old hf heq hlt ih => exact ih h

theorem updateSchema_registers (h : (updateSchema true schema fs).2 = false) :
    ∀ f ∈ fs, ∃ val, (updateSchema true schema fs).1 f.fieldName = some val ∧ f.endTime ≤ val.endTime := by
  fun_induction updateSchema true schema fs with
  | case1 schema => simp
  | case2 schema f fs hf ih | case4 schema f fs old hf heq hlt ih =>
    exact forall_mem_cons.mpr ⟨le_updateSchema (update_self ..), ih h⟩
  | case3 schema f fs old hf hne => simp at h
  | case5 schema f fs old hf heq hlt ih =>
    refine forall_mem_cons.mpr ⟨?_, ih h⟩
    obtain ⟨val, hval, hle⟩ := le_updateSchema hf
    have hold : f.endTime ≤ old.endTime := by simpa using hlt
    exact ⟨val, hval, hold.trans hle⟩

end Update

theorem exists_lastEnd {gs : List WrittenGroup} (h : gs ≠ []) : ∃ g ∈ gs, lastEnd gs = max 0 g.info.endTime := by
  obtain ⟨hmem, hnonneg, hmax⟩ := extreme_spec (· > ·) 0 (gs.map (·.info.endTime))
  rw [← lastEnd] at hmem hnonneg hmax
  rcases hmem with hzero | hmem
  · obtain ⟨g, hg⟩ := exists_mem_of_ne_nil gs h
    have hle := hmax _ (mem_map_of_mem hg)
    exact ⟨g, hg, by omega⟩
  · obtain ⟨g, hg, hend⟩ := mem_map.mp hmem
    exact ⟨g, hg, by omega⟩

namespace SchemaState

variable {s s' : SchemaState}

theorem Registered.inUse (h : s.Registered) : s.InUse := by
  intro g hg p hp
  obtain ⟨msti, val, hm, hval, -⟩ := h g hg p hp
  rw [hm, Option.any_some, hval]
  rfl

theorem Registered.write (h : s.Registered) (pos : ℕ) (mst : String) (fields : List (String × ℕ)) :
    (s.write pos mst fields).Registered := by
  unfold SchemaState.write
  split
  · next g msti hg hm =>
    generalize hr : updateSchema true msti.schema _ = r
    -- what was registered stays so
    have hkeep : ∀ {t p}, Holds s.measurements t p →
        Holds (update s.measurements mst (some { msti with schema := r.1 })) t p := by
      rintro t ⟨mst', name⟩ ⟨msti', val, hm', hval, hle⟩
      by_cases hp : mst' = mst
      · subst hp
        obtain rfl := Option.some.inj (hm.symm.trans hm')
        obtain ⟨val', hval', hle'⟩ := le_updateSchema hval
        exact ⟨_, val', update_self .., hr ▸ hval', fun ht => (hle ht).trans hle'⟩
      · exact ⟨msti', val, (update_of_ne hp ..).trans hm', hval, hle⟩
    intro g' hg' p hp
    dsimp only at hg'
    split_ifs at hg' with hc
    · exact hkeep (h g' hg' p hp)
    rcases mem_or_eq_of_mem_set hg' with hg' | rfl
    · exact hkeep (h g' hg' p hp)
    rcases mem_append.mp hp with hp | hp
    · exact hkeep (h g (mem_of_getElem? hg) p hp)
    · obtain ⟨f, hf, rfl⟩ := mem_map.mp hp
      obtain ⟨val, hval, hle⟩ := updateSchema_registers (by rw [hr]; simpa using hc) _ (mem_map_of_mem hf)
      exact ⟨_, val, update_self .., hr ▸ hval, fun _ => hle⟩
  · exact h

theorem exists_of_mark {id : ℕ} {gs : List WrittenGroup} (h : s.groups.mapM (WrittenGroup.mark id) = some gs)
    {g : WrittenGroup} (hg : g ∈ gs) : ∃ g0 ∈ s.groups, goes id g0 = g.expired ∧
      g0.info.endTime = g.info.endTime ∧ g0.written = g.written := by
  obtain ⟨g0, hg0, hmark⟩ := exists_of_mem_mapM h hg
  refine ⟨g0, hg0, by rw [goes, hmark, Option.any_some], ?_⟩
  obtain ⟨info, hinfo, rfl⟩ := Option.map_eq_some_iff.mp hmark
  obtain ⟨shards, -, rfl⟩ := Option.map_eq_some_iff.mp hinfo
  exact ⟨rfl, rfl⟩

theorem Registered.prune (h : s.Registered) {id : ℕ} (hsafe : s.safe (.prune id)) (hs : s.prune id = some s') :
    s'.Registered := by
  obtain ⟨gs, hgs, rfl⟩ := Option.map_eq_some_iff.mp hs
  intro g hg p hp
  obtain ⟨hg, hstay⟩ := mem_filter.mp hg
  obtain ⟨g0, hg0, hgoes, hend, hwritten⟩ := exists_of_mark hgs hg
  rw [← hwritten] at hp
  obtain ⟨msti, val, hm, hval, hle⟩ := h g0 hg0 p hp
  rw [hend] at hle
  dsimp only
  split_ifs with hnone
  · exact ⟨msti, val, hm, hval, hle⟩
  refine ⟨msti.schemaClean (lastEnd (gs.filter (·.expired))), val, congrArg (Option.map _) hm, ?_⟩
  unfold MstSchema.schemaClean
  split_ifs with hts
  · -- the last of the groups that go ends before `g`
    obtain ⟨r, hr, hlast⟩ := exists_lastEnd (mt isEmpty_iff.mpr hnone)
    obtain ⟨hr, hgone⟩ := mem_filter.mp hr
    obtain ⟨r0, hr0, hrgoes, hrend, -⟩ := exists_of_mark hgs hr
    have hlt := of_decide_eq_true hsafe r0 hr0 g0 hg0 (hrgoes.trans hgone) (by simpa [hgoes] using hstay)
      (any_eq_true.mpr ⟨p, hp, by rw [hm]; exact hts⟩)
    rw [hrend, ← hlast, hend] at hlt
    refine ⟨?_, hle⟩
    simpa [hval] using hlt.trans_le (hle hts)
  · exact ⟨hval, hle⟩

theorem Registered.step (h : s.Registered) {e : SchemaEvent} (hsafe : s.safe e) (hs : s.step e = some s') :
    s'.Registered := by
  cases e with
  | createGroup sg =>
    cases hs
    intro g hg p hp
    rcases mem_append.mp ((stableSort_perm _ _).mem_iff.mp hg) with hg | hg
    · exact h g hg p hp
    · rw [mem_singleton.mp hg] at hp
      exact absurd hp not_mem_nil
  | write pos mst fields => exact Option.some.inj hs ▸ h.write pos mst fields
  | deleteGroup id deletedAt =>
    cases hs
    intro g hg p hp
    obtain ⟨i, hi⟩ := mem_iff_getElem?.mp hg
    rw [SchemaState.deleteGroup, getElem?_modify] at hi
    obtain ⟨g0, hg0, rfl⟩ := Option.map_eq_some_iff.mp hi
    have hold := h g0 (mem_of_getElem? hg0) p
    split_ifs at hp ⊢ <;> exact hold hp
  | prune id => exact h.prune hsafe hs
  | restore =>
    cases hs
    intro g hg p hp
    obtain ⟨msti, val, hm, hval, hle⟩ := h g hg p hp
    refine ⟨⟨msti.tsStore, unmarshalCleanSchema msti.schema.snapshotMarshal⟩, ⟨val.typ, 0⟩,
      congrArg (Option.map _) hm, ?_, fun hts => ?_⟩
    · exact congrArg (Option.map _) (congrArg (Option.map _) hval)
    · exact of_decide_eq_true hsafe g hg (any_eq_true.mpr ⟨p, hp, by rw [hm]; exact hts⟩)

/-- **Fields in use stay**, in every state of a run whose events are safe. -/
theorem inUse_of_run {es : List SchemaEvent} (hfresh : ∀ g ∈ s.groups, g.written = []) (hsafe : s.safeRun es)
    (hrun : run step s es = some s') : s'.InUse := by
  have hreg : s.Registered := fun g hg p hp => by simp [hfresh g hg] at hp
  clear hfresh
  induction es generalizing s with
  | nil =>
    cases hrun
    exact hreg.inUse
  | cons e es ih =>
    obtain ⟨s1, hs1, hrun⟩ := Option.bind_eq_some_iff.mp hrun
    rw [safeRun, hs1, Bool.and_eq_true] at hsafe
    exact ih hsafe.2 hrun (hreg.step hsafe.1 hs1)

/-- One measurement without fields. -/
def fresh : SchemaState := ⟨[], fun mst => if mst = "cpu" then some ⟨true, fun _ => none⟩ else none⟩

/-- Two groups of an hour with one shard each. -/
def twoGroups : List SchemaEvent :=
  [.createGroup ⟨1, 0, 3600000000000, [⟨1, 1, false⟩], none, 0⟩,
    .createGroup ⟨2, 3600000000000, 7200000000000, [⟨2, 1, false⟩], none, 0⟩]

def oldestFirst : List SchemaEvent := twoGroups ++
  [.write 0 "cpu" [("usage", 1)], .write 1 "cpu" [("usage", 1)], .deleteGroup 1 (some 1), .prune 1]

theorem oldestFirst_inUse : ∃ s ∈ run step fresh oldestFirst, s.groups.length = 1 ∧ s.InUse := by
  have hrun : (run step fresh oldestFirst).any (·.groups.length = 1) := by decide +kernel
  obtain ⟨s, hs, hlen⟩ := (Option.any_eq_true _ _).mp hrun
  exact ⟨s, hs, of_decide_eq_true hlen, inUse_of_run (fun g hg => by cases hg) (by decide +kernel) hs⟩

/-- The newer group goes first, or the ends are lost by a restore: the field of the group that stays goes too. -/
theorem not_inUse :
    (run step fresh (twoGroups ++ [.write 0 "cpu" [("usage", 1)], .deleteGroup 2 (some 1), .prune 2])).any (¬ ·.InUse) ∧
    (run step fresh (twoGroups ++ [.write 1 "cpu" [("usage", 1)], .restore, .deleteGroup 1 (some 1), .prune 1])).any
      (¬ ·.InUse) := by
  decide +kernel

end SchemaState

end GeminiTS.Catalog
