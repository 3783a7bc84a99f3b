import GeminiTS.Lib.Machine
import GeminiTS.Meta.ShardGroups

/-!
# Catalog — the groups and measurements of the retention policies

The commands that make, expand and remove shard groups and index groups, and those that make measurements
(`lib/util/lifted/influx/meta/data.go`, `retentionpolicy.go`, `indexinfo.go`). The ids of shards and indexes come from
counters that all policies share. Where the code ranges over the map of measurements, the order is a parameter, and
there is no result where it panics.
-/

namespace GeminiTS.Catalog

open Lib List
open Meta (truncate maxNanoTime)

inductive KeyType
  | hash
  | range
  | other (name : String)
  deriving DecidableEq

structure ShardKeyInfo where
  shardKey : List String
  type : KeyType
  shardGroup : ℕ

/-- A measurement, with its name and the version that is part of its key. -/
structure MeasurementInfo where
  mst : String
  version : ℕ
  shardKeys : List ShardKeyInfo
  initNumOfShards : ℤ
  shardIdexes : ℕ → Option (List ℕ)
  markDeleted : Bool

structure IndexInfo where
  id : ℕ
  markDelete : Bool
  deriving DecidableEq

structure ShardInfo where
  id : ℕ
  indexID : ℕ
  markDelete : Bool
  deriving DecidableEq

structure IndexGroupInfo where
  id : ℕ
  startTime : ℤ
  endTime : ℤ
  indexes : List IndexInfo
  deletedAt : Option ℤ
  engineType : ℕ
  deriving DecidableEq

structure ShardGroupInfo where
  id : ℕ
  startTime : ℤ
  endTime : ℤ
  shards : List ShardInfo
  deletedAt : Option ℤ
  engineType : ℕ
  deriving DecidableEq

structure RetentionPolicyInfo where
  replicaN : ℕ
  duration : ℤ
  shardGroupDuration : ℤ
  hotDuration : ℤ
  warmDuration : ℤ
  indexGroupDuration : ℤ
  indexGroups : List IndexGroupInfo
  shardGroups : List ShardGroupInfo
  measurements : List MeasurementInfo
  mstVersions : String → Option ℕ

structure Data where
  clusterPtNum : ℕ
  numOfShards : ℤ
  maxShardGroupID : ℕ
  maxShardID : ℕ
  maxIndexGroupID : ℕ
  maxIndexID : ℕ
  policies : List RetentionPolicyInfo

inductive MetaError
  | storageNodeNotReady
  | noMeasurement
  | shardingTypeNotEqual (old new : KeyType)
  | conflictWithRep
  | measurementExists
  deriving DecidableEq

/-- The order in which a map of measurements is ranged over. -/
abbrev Order := List MeasurementInfo → List MeasurementInfo

/-! ### Index groups and shard groups -/

def groupEnd (start duration : ℤ) : ℤ := min (start + duration) (maxNanoTime + 1)

def newIndexes (maxIndexID n : ℕ) : List IndexInfo := (List.range' (maxIndexID + 1) n).map (⟨·, false⟩)

section Groups

variable (d : Data) (rp : RetentionPolicyInfo) (timestamp : ℤ) (engineType : ℕ)

def createIndexGroup : IndexGroupInfo × Data × RetentionPolicyInfo :=
  let start := truncate timestamp rp.indexGroupDuration
  let igi : IndexGroupInfo := ⟨d.maxIndexGroupID + 1, start, groupEnd start rp.indexGroupDuration,
    newIndexes d.maxIndexID d.clusterPtNum, none, engineType⟩
  (igi, { d with maxIndexGroupID := d.maxIndexGroupID + 1, maxIndexID := d.maxIndexID + d.clusterPtNum },
    { rp with indexGroups := stableSort (fun g => toLex (g.endTime, g.startTime)) (rp.indexGroups ++ [igi]) })

/-- The first index group with the type and the timestamp is taken if it has an index for every partition. -/
def createIndexGroupIfNeeded : IndexGroupInfo × Data × RetentionPolicyInfo :=
  match rp.indexGroups.find? fun g => g.engineType = engineType ∧ g.startTime ≤ timestamp ∧ timestamp < g.endTime with
  | some igi =>
    if d.clusterPtNum ≤ igi.indexes.length then (igi, d, rp) else createIndexGroup d rp timestamp engineType
  | none => createIndexGroup d rp timestamp engineType

theorem createIndexGroupIfNeeded_cases : (∃ igi ∈ rp.indexGroups, igi.startTime ≤ timestamp ∧ timestamp < igi.endTime ∧
      d.clusterPtNum ≤ igi.indexes.length ∧ createIndexGroupIfNeeded d rp timestamp engineType = (igi, d, rp)) ∨
    createIndexGroupIfNeeded d rp timestamp engineType = createIndexGroup d rp timestamp engineType := by
  unfold createIndexGroupIfNeeded
  split
  · next igi h =>
    have hig := find?_some h
    rw [decide_eq_true_eq] at hig
    split_ifs with hlen
    · exact .inl ⟨igi, mem_of_find?_eq_some h, hig.2.1, hig.2.2, hlen, rfl⟩
    · exact .inr rfl
  · exact .inr rfl

variable {d rp timestamp engineType} in
theorem createIndexGroupIfNeeded_frame {igi : IndexGroupInfo} {d' : Data} {rp' : RetentionPolicyInfo}
    (h : createIndexGroupIfNeeded d rp timestamp engineType = (igi, d', rp')) :
    d.clusterPtNum ≤ igi.indexes.length ∧
      d' = { d with maxIndexGroupID := d'.maxIndexGroupID, maxIndexID := d'.maxIndexID } ∧
      rp' = { rp with indexGroups := rp'.indexGroups } := by
  rcases createIndexGroupIfNeeded_cases d rp timestamp engineType with ⟨_, -, -, -, hlen, heq⟩ | heq
  · cases heq.symm.trans h
    exact ⟨hlen, rfl, rfl⟩
  · cases heq.symm.trans h
    exact ⟨by rw [newIndexes, length_map, length_range'], rfl, rfl⟩

/-- The shards of a new group: of a range-sharded measurement as many as the last group has. -/
def shardCount (msti : MeasurementInfo) : ℕ :=
  if msti.shardKeys.head?.any (·.type = .range) then (rp.shardGroups.getLast?.map (·.shards.length)).getD 1
  else d.clusterPtNum

/-- `createShards`; a shard above the partitions has no index. -/
def newShards (igi : IndexGroupInfo) (n : ℕ) : List ShardInfo :=
  (range n).map fun i =>
    ⟨d.maxShardID + 1 + i, ((igi.indexes.take d.clusterPtNum)[i]?.map (·.id)).getD 0, false⟩

end Groups

/-- `mapShards`: the first positions of a permutation that the name seeds. -/
def mapShards (perm : String × ℕ → ℕ → List ℕ) (msti : MeasurementInfo) (shards : List ShardInfo) : Option (List ℕ) :=
  if 0 ≤ msti.initNumOfShards ∧ msti.initNumOfShards ≤ shards.length then
    some (((perm (msti.mst, msti.version) shards.length).take msti.initNumOfShards.toNat).insertionSort (· ≤ ·))
  else none

/-- Map the shards of a group, as `mapShardsToMst` and `createVersionMeasurement` do. -/
def MeasurementInfo.mapGroup (perm : String × ℕ → ℕ → List ℕ) (sg : ShardGroupInfo) (msti : MeasurementInfo) :
    Option MeasurementInfo :=
  if msti.initNumOfShards = 0 then some msti
  else (mapShards perm msti sg.shards).map fun idx =>
    { msti with shardIdexes := fun g => if g = sg.id then some idx else msti.shardIdexes g }

theorem shardKeys_mapGroup {perm : String × ℕ → ℕ → List ℕ} {sg : ShardGroupInfo} {m m' : MeasurementInfo}
    (h : m.mapGroup perm sg = some m') : m'.shardKeys = m.shardKeys := by
  unfold MeasurementInfo.mapGroup at h
  split_ifs at h
  · cases h
    rfl
  · obtain ⟨idx, -, rfl⟩ := Option.map_eq_some_iff.mp h
    rfl

section Commands

variable (perm : String × ℕ → ℕ → List ℕ) (ord : Order) (d : Data) (rp : RetentionPolicyInfo)

def shardGroupByTimestampAndEngineType (timestamp : ℤ) (engineType : ℕ) : Option ShardGroupInfo :=
  lastMatch (fun g => g.engineType = engineType ∧ g.startTime ≤ timestamp ∧ timestamp < g.endTime ∧ g.deletedAt = none)
    rp.shardGroups

def createShardGroup (timestamp : ℤ) (engineType : ℕ) : Option (Except MetaError (Data × RetentionPolicyInfo)) :=
  if d.clusterPtNum = 0 then some (.error .storageNodeNotReady)
  else if (shardGroupByTimestampAndEngineType rp timestamp engineType).isSome then some (.ok (d, rp))
  else match (ord rp.measurements).head? with
    | none => some (.error .noMeasurement)
    | some msti =>
      let (igi, d, rp) := createIndexGroupIfNeeded d rp timestamp engineType
      let n := shardCount d rp msti
      let start := truncate timestamp rp.shardGroupDuration
      let sg : ShardGroupInfo := ⟨d.maxShardGroupID + 1, start, groupEnd start rp.shardGroupDuration,
        newShards d igi n, none, engineType⟩
      if igi.indexes.length < min n d.clusterPtNum then none
      else msti.shardKeys.head?.bind fun ski =>
        (if ski.type = .hash then rp.measurements.mapM (MeasurementInfo.mapGroup perm sg) else some rp.measurements).map
          fun msts => .ok ({ d with maxShardGroupID := d.maxShardGroupID + 1, maxShardID := d.maxShardID + n },
            { rp with
              measurements := msts
              shardGroups := stableSort (fun g => toLex (g.endTime, g.startTime)) (rp.shardGroups ++ [sg]) })

variable {perm ord d rp} in
/-- A shard group that is there, or a new one with an index group. -/
theorem createShardGroup_ok {timestamp : ℤ} {engineType : ℕ} {d' : Data} {rp' : RetentionPolicyInfo}
    (h : createShardGroup perm ord d rp timestamp engineType = some (.ok (d', rp'))) :
    d.clusterPtNum ≠ 0 ∧ (d' = d ∧ rp' = rp ∨ ∃ msti igi d1 rp1 msts,
      createIndexGroupIfNeeded d rp timestamp engineType = (igi, d1, rp1) ∧
      d' = { d1 with
        maxShardGroupID := d1.maxShardGroupID + 1
        maxShardID := d1.maxShardID + shardCount d1 rp1 msti } ∧
      rp' = { rp1 with
        measurements := msts
        shardGroups := stableSort (fun g => toLex (g.endTime, g.startTime)) (rp1.shardGroups ++
          [⟨d1.maxShardGroupID + 1, truncate timestamp rp1.shardGroupDuration,
            groupEnd (truncate timestamp rp1.shardGroupDuration) rp1.shardGroupDuration,
            newShards d1 igi (shardCount d1 rp1 msti), none, engineType⟩]) } ∧
      ∀ m ∈ msts, ∃ m0 ∈ rp1.measurements, m0.shardKeys = m.shardKeys) := by
  unfold createShardGroup at h
  split_ifs at h with hpt
  · cases h
  · cases h
    exact ⟨hpt, .inl ⟨rfl, rfl⟩⟩
  split at h
  · cases h
  next msti _ =>
  rcases hi : createIndexGroupIfNeeded d rp timestamp engineType with ⟨igi, d1, rp1⟩
  rw [hi] at h
  dsimp only at h
  split_ifs at h
  obtain ⟨ski, -, h⟩ := Option.bind_eq_some_iff.mp h
  obtain ⟨msts, hmsts, h⟩ := Option.map_eq_some_iff.mp h
  cases h
  refine ⟨hpt, .inr ⟨msti, igi, d1, rp1, msts, rfl, rfl, rfl, fun m hm => ?_⟩⟩
  split_ifs at hmsts
  · obtain ⟨m0, hm0, heq⟩ := exists_of_mem_mapM hmsts hm
    exact ⟨m0, hm0, (shardKeys_mapGroup heq).symm⟩
  · cases hmsts
    exact ⟨m, hm, rfl⟩

/-! ### Measurements -/

/-- `validMeasurementShardType` with the first measurement of another name. -/
def validMeasurementShardType (shardType : KeyType) (mst : String) : Option MetaError :=
  ((ord rp.measurements).find? (·.mst ≠ mst)).bind fun msti => msti.shardKeys.head?.bind fun ski =>
    if ski.type = shardType then none else some (.shardingTypeNotEqual ski.type shardType)

def measurement (mst : String) : Option MeasurementInfo :=
  (rp.mstVersions mst).bind fun version => rp.measurements.find? fun m => m.mst = mst ∧ m.version = version

/-- `createVersionMeasurement`. -/
def createVersionMeasurement (mst : String) (version : ℕ) (shardKey : Option ShardKeyInfo) (numOfShards : ℤ) :
    Option RetentionPolicyInfo :=
  let n := if numOfShards = -1 then d.numOfShards else numOfShards
  let group := if rp.shardGroups = [] then d.maxShardGroupID + 1 else 0
  let init := if n ≠ 0 ∧ shardKey.any (·.type = .hash) ∧ n < d.clusterPtNum then n else 0
  let msti : MeasurementInfo :=
    ⟨mst, version, shardKey.toList.map fun ski => { ski with shardGroup := group }, init, fun _ => none, false⟩
  (rp.shardGroups.foldlM (fun m sg => MeasurementInfo.mapGroup perm sg m) msti).map fun msti =>
    { rp with
      measurements := rp.measurements.filter (fun m => ¬ (m.mst = mst ∧ m.version = version)) ++ [msti]
      mstVersions := fun name => if name = mst then some version else rp.mstVersions name }

/-- `CreateMeasurement`; `colStore`: with column-store info. -/
def createMeasurement (mst : String) (shardKey : Option ShardKeyInfo) (numOfShards : ℤ) (colStore : Bool) :
    Option (Except MetaError (Data × RetentionPolicyInfo)) :=
  match shardKey.bind fun ski => validMeasurementShardType ord rp ski.type mst with
  | some err => some (.error err)
  | none =>
    if 1 < rp.replicaN ∧ (shardKey.any (·.type = .range) ∨ colStore) then some (.error .conflictWithRep)
    else match (measurement rp mst).filter fun msti => ! msti.markDeleted with
      | none =>
        let version := ((rp.mstVersions mst).map fun v => (v + 1) % 2 ^ 16).getD 0
        (createVersionMeasurement perm d rp mst version shardKey numOfShards).map fun rp => .ok (d, rp)
      | some msti =>
        if msti.shardKeys.getLast?.any fun ski => (shardKey.map (·.shardKey)).getD [] = ski.shardKey ∧
            (shardKey.map (·.type)).getD (.other "") = ski.type then some (.ok (d, rp))
        else some (.error .measurementExists)

/-- `MarkMeasurementDelete`, where neither a stream nor a migration uses the measurement. -/
def markMeasurementDelete (mst : String) : RetentionPolicyInfo :=
  { rp with measurements := rp.measurements.map fun m =>
      if m.mst = mst ∧ rp.mstVersions mst = some m.version then { m with markDeleted := true } else m }

def dropMeasurement (mst : String) (version : ℕ) : RetentionPolicyInfo :=
  { rp with measurements := rp.measurements.filter fun m => ¬ (m.mst = mst ∧ m.version = version ∧ m.markDeleted) }

end Commands

/-! ### Expansion -/

def expandIndexGroup (ptNum maxIndexID : ℕ) (ig : IndexGroupInfo) : IndexGroupInfo :=
  { ig with indexes := ig.indexes ++ newIndexes maxIndexID (ptNum - ig.indexes.length) }

def expandIndexGroups (ptNum : ℕ) : ℕ → List IndexGroupInfo → ℕ × List IndexGroupInfo
  | maxIndexID, [] => (maxIndexID, [])
  | maxIndexID, ig :: igs =>
    let (max, igs) := expandIndexGroups ptNum (maxIndexID + (ptNum - ig.indexes.length)) igs
    (max, expandIndexGroup ptNum maxIndexID ig :: igs)

/-- Add `k` shards to a group. The tier of a shard is that of the one before it. -/
def expandShardGroup : ℕ → Data → RetentionPolicyInfo → ShardGroupInfo →
    Option (Data × RetentionPolicyInfo × ShardGroupInfo)
  | 0, d, rp, sg => some (d, rp, sg)
  | k + 1, d, rp, sg =>
    if sg.shards = [] then none
    else
      let (igi, d, rp) := createIndexGroupIfNeeded d rp sg.startTime sg.engineType
      igi.indexes[sg.shards.length]?.bind fun index =>
        expandShardGroup k { d with maxShardID := d.maxShardID + 1 } rp
          { sg with shards := sg.shards ++ [⟨d.maxShardID + 1, index.id, false⟩] }

def expandShardGroups : List ShardGroupInfo → Data → RetentionPolicyInfo →
    Option (Data × RetentionPolicyInfo × List ShardGroupInfo)
  | [], d, rp => some (d, rp, [])
  | sg :: sgs, d, rp =>
    (expandShardGroup (d.clusterPtNum - sg.shards.length) d rp sg).bind fun (d, rp, sg) =>
      (expandShardGroups sgs d rp).map fun (d, rp, sgs) => (d, rp, sg :: sgs)

/-- The type of the last measurement that has one. -/
def shardingType (ord : Order) (rp : RetentionPolicyInfo) : Option KeyType :=
  (lastMatch (fun m => ! m.shardKeys.isEmpty) (ord rp.measurements)).bind fun m => m.shardKeys.head?.map (·.type)

def expandPolicy (ord : Order) (d : Data) (rp : RetentionPolicyInfo) : Option (Data × RetentionPolicyInfo) :=
  if shardingType ord rp = some .range then some (d, rp)
  else
    let (max, igs) := expandIndexGroups d.clusterPtNum d.maxIndexID rp.indexGroups
    (expandShardGroups rp.shardGroups { d with maxIndexID := max } { rp with indexGroups := igs }).map
      fun (d, rp, sgs) => (d, { rp with shardGroups := sgs })

def expandGroups (ord : Order) : List RetentionPolicyInfo → Data → Option (Data × List RetentionPolicyInfo)
  | [], d => some (d, [])
  | rp :: rps, d => (expandPolicy ord d rp).bind fun (d, rp) =>
      (expandGroups ord rps d).map fun (d, rps) => (d, rp :: rps)

/-- What `CreateDataNode` does to the policies: a node brings partitions. -/
def createDataNode (ord : Order) (d : Data) (newPtNum : ℕ) (expandShardsEnable : Bool) : Option Data :=
  let d := { d with clusterPtNum := d.clusterPtNum + newPtNum }
  if expandShardsEnable then (expandGroups ord d.policies d).map fun (d, rps) => { d with policies := rps } else some d

/-! ### Removal -/

section Prune

variable {α : Type*} (id : α → ℕ) (mark : α → α)

/-- Mark the first member with the id or a larger one, if the id is between the first and the last. -/
def markMember (n : ℕ) (ms : List α) : Option (List α) :=
  match ms.head?, ms.getLast? with
  | some first, some last =>
    some (if id first ≤ n ∧ n ≤ id last then ms.modify (sortSearch (fun i => ms[i]?.any (n ≤ id ·)) 0 ms.length) mark
      else ms)
  | _, _ => none

end Prune

def IndexInfo.mark (i : IndexInfo) : IndexInfo := { i with markDelete := true }

def ShardInfo.mark (s : ShardInfo) : ShardInfo := { s with markDelete := true }

def markIndexes (n : ℕ) (ig : IndexGroupInfo) : Option IndexGroupInfo :=
  (markMember IndexInfo.id IndexInfo.mark n ig.indexes).map fun indexes => { ig with indexes := indexes }

def markShards (n : ℕ) (sg : ShardGroupInfo) : Option ShardGroupInfo :=
  (markMember ShardInfo.id ShardInfo.mark n sg.shards).map fun shards => { sg with shards := shards }

def IndexGroupInfo.canDelete (ig : IndexGroupInfo) : Bool := ig.indexes.all (·.markDelete)

def ShardGroupInfo.canDelete (sg : ShardGroupInfo) : Bool := sg.shards.all (·.markDelete)

def dropIndexGroups (rp : RetentionPolicyInfo) (igs : List IndexGroupInfo) : RetentionPolicyInfo :=
  { rp with indexGroups := igs.filter (! ·.canDelete) }

/-- The groups that are deleted and have no shard left go, and the positions kept for them. -/
def dropShardGroups (rp : RetentionPolicyInfo) (sgs : List ShardGroupInfo) : RetentionPolicyInfo :=
  let removed := sgs.filter fun sg => sg.deletedAt.isSome ∧ sg.canDelete
  { rp with
    measurements := rp.measurements.map fun m =>
      { m with shardIdexes := fun g => if g ∈ removed.map (·.id) then none else m.shardIdexes g }
    shardGroups := sgs.filter fun sg => ¬ (sg.deletedAt.isSome ∧ sg.canDelete) }

def pruneIndexGroups (n : ℕ) (rp : RetentionPolicyInfo) : Option RetentionPolicyInfo :=
  (rp.indexGroups.mapM (markIndexes n)).map (dropIndexGroups rp)

def pruneShardGroups (n : ℕ) (rp : RetentionPolicyInfo) : Option RetentionPolicyInfo :=
  (rp.shardGroups.mapM (markShards n)).map (dropShardGroups rp)

/-- `DeleteShardGroup`, with the time it is marked with or no time where a deletion is cancelled. -/
def deleteShardGroup (id : ℕ) (deletedAt : Option ℤ) (rp : RetentionPolicyInfo) : RetentionPolicyInfo :=
  { rp with shardGroups := rp.shardGroups.modify (rp.shardGroups.findIdx (·.id = id)) fun sg =>
      { sg with deletedAt := deletedAt } }

/-! ### Histories -/

def normalisedIndexDuration (igd sgd : ℤ) : ℤ :=
  if igd < sgd then sgd else if igd % sgd = 0 then igd else (igd / sgd + 1) * sgd

/-- `UpdateRetentionPolicy`. `refused`: the name or a down-sampling stands against it. -/
def updateRetentionPolicy (rp : RetentionPolicyInfo) (rpu : Meta.RetentionPolicyUpdate) (igd : Option ℤ)
    (refused : Bool) : RetentionPolicyInfo :=
  let duration := rpu.duration.getD rp.duration
  let sgd := Meta.normalisedShardDuration (rpu.shardGroupDuration.getD rp.shardGroupDuration) duration
  let hot := rpu.hotDuration.getD rp.hotDuration
  let warm := rpu.warmDuration.getD rp.warmDuration
  if refused ∨ ¬ Meta.checkSpecValid duration sgd hot warm then rp
  else
    { rp with
      duration := duration
      shardGroupDuration := sgd
      hotDuration := hot
      warmDuration := warm
      indexGroupDuration := normalisedIndexDuration (igd.getD rp.indexGroupDuration) sgd }

/-- The commands; `p` is the position of the policy. -/
inductive Command
  | createShardGroup (p : ℕ) (timestamp : ℤ) (engineType : ℕ)
  | createMeasurement (p : ℕ) (mst : String) (shardKey : Option ShardKeyInfo) (numOfShards : ℤ) (colStore : Bool)
  | markMeasurementDelete (p : ℕ) (mst : String)
  | dropMeasurement (p : ℕ) (mst : String) (version : ℕ)
  | updateRetentionPolicy (p : ℕ) (rpu : Meta.RetentionPolicyUpdate) (igd : Option ℤ) (refused : Bool)
  | deleteShardGroup (p id : ℕ) (deletedAt : Option ℤ)
  | createDataNode (newPtNum : ℕ) (expandShardsEnable : Bool)
  | pruneShards (id : ℕ)
  | pruneIndexes (id : ℕ)

namespace Data

/-- A command on one policy. -/
def withPolicy (d : Data) (p : ℕ) (f : RetentionPolicyInfo → Option (Except MetaError (Data × RetentionPolicyInfo))) :
    Option (Except MetaError Data) :=
  match d.policies[p]? with
  | none => some (.ok d)
  | some rp => (f rp).map fun
    | .ok (d', rp') => .ok { d' with policies := d.policies.set p rp' }
    | .error err => .error err

/-- An error changes nothing. -/
def onPolicy (d : Data) (p : ℕ) (f : RetentionPolicyInfo → Option (Except MetaError (Data × RetentionPolicyInfo))) :
    Option Data :=
  (d.withPolicy p f).map fun
    | .ok d' => d'
    | .error _ => d

def step (perm : String × ℕ → ℕ → List ℕ) (d : Data) : Order × Command → Option Data
  | (ord, .createShardGroup p timestamp engineType) =>
    d.onPolicy p fun rp => createShardGroup perm ord d rp timestamp engineType
  | (ord, .createMeasurement p mst shardKey numOfShards colStore) =>
    d.onPolicy p fun rp => createMeasurement perm ord d rp mst shardKey numOfShards colStore
  | (_, .markMeasurementDelete p mst) => d.onPolicy p fun rp => some (.ok (d, markMeasurementDelete rp mst))
  | (_, .dropMeasurement p mst version) => d.onPolicy p fun rp => some (.ok (d, dropMeasurement rp mst version))
  | (_, .updateRetentionPolicy p rpu igd refused) =>
    d.onPolicy p fun rp => some (.ok (d, updateRetentionPolicy rp rpu igd refused))
  | (_, .deleteShardGroup p id deletedAt) => d.onPolicy p fun rp => some (.ok (d, deleteShardGroup id deletedAt rp))
  | (ord, .createDataNode newPtNum expandShardsEnable) => createDataNode ord d newPtNum expandShardsEnable
  | (_, .pruneShards id) => (d.policies.mapM (pruneShardGroups id)).map fun rps => { d with policies := rps }
  | (_, .pruneIndexes id) => (d.policies.mapM (pruneIndexGroups id)).map fun rps => { d with policies := rps }

end Data

/-! ### A small catalog -/

/-- One policy without groups. -/
def freshData (sgd igd : ℤ) : Data := ⟨0, 0, 0, 0, 0, 0, [⟨1, 0, sgd, 0, 0, igd, [], [], [], fun _ => none⟩]⟩

/-- A node with one partition, a measurement, and shard groups for some times. -/
def firstCommands (timestamps : List ℤ) : List (Order × Command) :=
  (id, .createDataNode 1 false) :: (id, .createMeasurement 0 "cpu" (some ⟨[], .hash, 0⟩) 0 false) ::
    timestamps.map fun t => (id, .createShardGroup 0 t 0)

def ascending (_ : String × ℕ) (n : ℕ) : List ℕ := List.range n

end GeminiTS.Catalog
