import GeminiTS.Lib.Lists
import GeminiTS.Lib.SortSearch

/-!
# ShardGroups — the shard group of a timestamp

A retention policy has shard groups in the order of their ends, and a timestamp is written to the last group that
contains it (`lib/util/lifted/influx/meta/data.go`, `retentionpolicy.go`, `shardinfo.go`). Times and durations are in
nanoseconds.

* `PolicyHistory.stable_iff` — the timestamps keep their groups exactly if every new group sorts before those it
  overlaps; `widened_moves` is a policy whose group duration is increased.
-/

namespace GeminiTS.Meta

open Lib List

/-! ### The code -/

structure ShardInfo where
  id : ℕ
  markDelete : Bool
  deriving DecidableEq

/-- A shard group. It has at least one shard. -/
structure ShardGroupInfo where
  id : ℕ
  startTime : ℤ
  endTime : ℤ
  deletedAt : Option ℤ
  shards : List ShardInfo
  shards_ne : shards ≠ []
  truncatedAt : Option ℤ
  engineType : ℕ
  deriving DecidableEq

namespace ShardGroupInfo

def contains (sgi : ShardGroupInfo) (t : ℤ) : Bool := !decide (t < sgi.startTime) && decide (t < sgi.endTime)

def deleted (sgi : ShardGroupInfo) : Bool := sgi.deletedAt.isSome

/-- The times and the type that are written to a group, if it is not deleted. -/
def takes (sgi : ShardGroupInfo) (t : ℤ) (engineType : ℕ) : Bool :=
  decide (sgi.engineType = engineType) && sgi.contains t && sgi.truncatedAt.all fun at' => t < at'

/-- `Less`: groups are in the order of their ends, then of their starts. -/
def key (sgi : ShardGroupInfo) : ℤ ×ₗ ℤ := toLex (sgi.truncatedAt.getD sgi.endTime, sgi.startTime)

def canDelete (sgi : ShardGroupInfo) : Bool := sgi.shards.all (·.markDelete)

end ShardGroupInfo

def shardGroupByTimestampAndEngineType (groups : List ShardGroupInfo) (t : ℤ) (engineType : ℕ) :
    Option ShardGroupInfo :=
  lastMatch (fun sgi => sgi.takes t engineType && !sgi.deleted) groups

structure RetentionPolicyInfo where
  duration : ℤ
  shardGroupDuration : ℤ
  hotDuration : ℤ
  warmDuration : ℤ
  shardGroups : List ShardGroupInfo
  hasDownSamplePolicy : Bool

/-- The sharding of the measurements of the policy. -/
inductive ShardType
  | hash
  | range
  deriving DecidableEq

/-- What of `Data` is used. `measurement` is the sharding of the measurement that is found first, if there is one. -/
structure PolicyData where
  ptNum : ℕ
  measurement : Option ShardType
  maxShardGroupID : ℕ
  maxShardID : ℕ
  rpi : RetentionPolicyInfo

/-- From the zero time of Go to 1970. -/
def unixToInternal : ℤ := 62135596800 * 10 ^ 9

/-- `time.Truncate`, in the time since the zero time. -/
def truncate (t d : ℤ) : ℤ := if d ≤ 0 then t else t - (t + unixToInternal) % d

def maxNanoTime : ℤ := 2 ^ 63 - 2

/-- The shards of a new group: of a range-sharded measurement as many as the last group has. -/
def shardCount (d : PolicyData) : ShardType → ℕ
  | .hash => d.ptNum
  | .range => (d.rpi.shardGroups.getLast?.map fun sgi => sgi.shards.length).getD 1

theorem shardCount_ne_zero {d : PolicyData} (h : d.ptNum ≠ 0) (ty : ShardType) : shardCount d ty ≠ 0 := by
  cases ty with
  | hash => exact h
  | range =>
    rw [shardCount]
    cases d.rpi.shardGroups.getLast? with
    | none => exact Nat.one_ne_zero
    | some sgi => exact mt length_eq_zero_iff.mp sgi.shards_ne

def newShards (maxShardID n : ℕ) : List ShardInfo := (List.range n).map fun i => ⟨maxShardID + 1 + i, false⟩

theorem newShards_ne_nil {maxShardID n : ℕ} (h : n ≠ 0) : newShards maxShardID n ≠ [] := by
  rw [newShards, Ne, map_eq_nil_iff, range_eq_nil]
  exact h

/-- `newShardGroup`, with its shards. -/
def newShardGroup (d : PolicyData) (timestamp : ℤ) (engineType : ℕ) (n : ℕ) (hn : n ≠ 0) : ShardGroupInfo where
  id := d.maxShardGroupID + 1
  startTime := truncate timestamp d.rpi.shardGroupDuration
  endTime := min (truncate timestamp d.rpi.shardGroupDuration + d.rpi.shardGroupDuration) (maxNanoTime + 1)
  deletedAt := none
  shards := newShards d.maxShardID n
  shards_ne := newShards_ne_nil hn
  truncatedAt := none
  engineType := engineType

/-- The group that `CreateShardGroup` adds, if it adds one. -/
def createdGroup (d : PolicyData) (timestamp : ℤ) (engineType : ℕ) : Option ShardGroupInfo :=
  if h : d.ptNum = 0 then none
  else if (shardGroupByTimestampAndEngineType d.rpi.shardGroups timestamp engineType).isSome then none
  else d.measurement.map fun ty => newShardGroup d timestamp engineType (shardCount d ty) (shardCount_ne_zero h ty)

/-- Put the groups into order. -/
def sortGroups (groups : List ShardGroupInfo) : List ShardGroupInfo := stableSort ShardGroupInfo.key groups

def createShardGroup (d : PolicyData) (timestamp : ℤ) (engineType : ℕ) : PolicyData :=
  match createdGroup d timestamp engineType with
  | none => d
  | some sgi =>
    { d with
      maxShardGroupID := d.maxShardGroupID + 1
      maxShardID := d.maxShardID + sgi.shards.length
      rpi := { d.rpi with shardGroups := sortGroups (d.rpi.shardGroups ++ [sgi]) } }

def hour : ℤ := 3600 * 10 ^ 9

def shardGroupDuration (d : ℤ) : ℤ :=
  if d ≥ 180 * 24 * hour ∨ d = 0 then 7 * 24 * hour else if d ≥ 2 * 24 * hour then 24 * hour else hour

def normalisedShardDuration (sgd d : ℤ) : ℤ :=
  if sgd = 0 then shardGroupDuration d else if sgd < hour then shardGroupDuration hour else sgd

/-- `CheckSpecValid`, behind the normalisation. -/
def checkSpecValid (duration sgd hot warm : ℤ) : Bool := hot.tmod sgd = 0 && warm.tmod sgd = 0 &&
    (duration = 0 || hour ≤ duration) && (hot = 0 || hour ≤ hot) && (warm = 0 || hour ≤ warm) &&
    (duration = 0 || sgd ≤ duration) && (hot = 0 || sgd ≤ hot) && (warm = 0 || sgd ≤ warm) &&
    (warm = duration || warm.tmod sgd = 0) &&
    (duration = 0 || hot = 0 || hot ≤ duration) && (duration = 0 || warm = 0 || warm ≤ duration)

/-- The durations of a `RetentionPolicyUpdate`. -/
structure RetentionPolicyUpdate where
  duration : Option ℤ
  shardGroupDuration : Option ℤ
  hotDuration : Option ℤ
  warmDuration : Option ℤ

/-- `UpdateRetentionPolicy`. `nameTaken`: the new name is that of another policy. -/
def updateRetentionPolicy (rpi : RetentionPolicyInfo) (rpu : RetentionPolicyUpdate) (nameTaken : Bool) :
    RetentionPolicyInfo :=
  let duration := rpu.duration.getD rpi.duration
  let sgd := normalisedShardDuration (rpu.shardGroupDuration.getD rpi.shardGroupDuration) duration
  let hot := rpu.hotDuration.getD rpi.hotDuration
  let warm := rpu.warmDuration.getD rpi.warmDuration
  if rpi.hasDownSamplePolicy && decide (rpi.duration ≠ duration) then rpi
  else if nameTaken then rpi
  else if checkSpecValid duration sgd hot warm then
    { rpi with duration := duration, shardGroupDuration := sgd, hotDuration := hot, warmDuration := warm }
  else rpi

/-- Change the first group with an id. -/
def modifyGroup (id : ℕ) (f : ShardGroupInfo → ShardGroupInfo) : List ShardGroupInfo → List ShardGroupInfo
  | [] => []
  | sgi :: groups => if sgi.id = id then f sgi :: groups else sgi :: modifyGroup id f groups

/-- `DeleteShardGroup`: mark the group as deleted at a time, or take the mark away. -/
def deleteShardGroup (id : ℕ) (deletedAt : Option ℤ) (groups : List ShardGroupInfo) : List ShardGroupInfo :=
  modifyGroup id (fun sgi => { sgi with deletedAt := deletedAt }) groups

/-- Mark the shard with an id. -/
def markShard (id : ℕ) (shards : List ShardInfo) : List ShardInfo :=
  shards.modify (sortSearch (fun i => shards[i]?.any (id ≤ ·.id)) 0 shards.length) fun s =>
    { s with markDelete := true }

theorem markShard_ne_nil {id : ℕ} {shards : List ShardInfo} (h : shards ≠ []) : markShard id shards ≠ [] := by
  rw [markShard, Ne, modify_eq_nil_iff]
  exact h

/-- The body of the loop of `pruneShardGroups`: the group, unless it is removed. -/
def pruneGroup (id : ℕ) (sgi : ShardGroupInfo) : Option ShardGroupInfo :=
  let sgi' := if (sgi.shards.head sgi.shards_ne).id ≤ id ∧ id ≤ (sgi.shards.getLast sgi.shards_ne).id then
      { sgi with shards := markShard id sgi.shards, shards_ne := markShard_ne_nil sgi.shards_ne }
    else sgi
  if sgi'.deleted && sgi'.canDelete then none else some sgi'

def pruneShardGroups (id : ℕ) (groups : List ShardGroupInfo) : List ShardGroupInfo := groups.filterMap (pruneGroup id)

/-! ### Histories -/

inductive PolicyEvent
  | create (timestamp : ℤ) (engineType : ℕ)
  | update (rpu : RetentionPolicyUpdate) (nameTaken : Bool)
  | delete (id : ℕ) (deletedAt : ℤ)
  | cancelDelete (id : ℕ)
  | prune (id : ℕ)

namespace PolicyData

variable (d : PolicyData)

def groups : List ShardGroupInfo := d.rpi.shardGroups

def withGroups (groups : List ShardGroupInfo) : PolicyData := { d with rpi := { d.rpi with shardGroups := groups } }

def step : PolicyEvent → PolicyData
  | .create timestamp engineType => createShardGroup d timestamp engineType
  | .update rpu nameTaken => { d with rpi := updateRetentionPolicy d.rpi rpu nameTaken }
  | .delete id deletedAt => d.withGroups (deleteShardGroup id (some deletedAt) d.groups)
  | .cancelDelete id => d.withGroups (deleteShardGroup id none d.groups)
  | .prune id => d.withGroups (pruneShardGroups id d.groups)

/-- The group of a timestamp. -/
def route (t : ℤ) (engineType : ℕ) : Option ShardGroupInfo := shardGroupByTimestampAndEngineType d.groups t engineType

/-- A group is there and not deleted. -/
def Live (id : ℕ) : Prop := ∃ sgi ∈ d.groups, sgi.id = id ∧ sgi.deleted = false

/-- A timestamp is written to the group with an id. -/
def Routes (t : ℤ) (engineType id : ℕ) : Prop := ∃ sgi, d.route t engineType = some sgi ∧ sgi.id = id

end PolicyData

/-- A retention policy that starts without groups. -/
structure PolicyHistory where
  start : PolicyData
  empty : start.groups = []
  events : List PolicyEvent

namespace PolicyHistory

variable (h : PolicyHistory)

/-- The state after the first `k` events. -/
def state (k : ℕ) : PolicyData := (h.events.take k).foldl PolicyData.step h.start

/-- A timestamp keeps its group as long as the group is there and not deleted. -/
def Stable : Prop := ∀ i j, i ≤ j → j ≤ h.events.length → ∀ t engineType id,
    (h.state i).Routes t engineType id → (h.state j).Live id → (h.state j).Routes t engineType id

/-- What an event has to meet. If a timestamp needs a group, then for each time between the start and the end that the
duration of the policy gives, the group of the time ends later, or ends there and starts later. A group whose deletion
is cancelled stands before the group that each of its times is written to, and no time that was written to it is written
anywhere now. -/
def Allows (k : ℕ) : PolicyEvent → Prop
  | .create timestamp engineType =>
    let start := truncate timestamp (h.state k).rpi.shardGroupDuration
    let stop := min (start + (h.state k).rpi.shardGroupDuration) (maxNanoTime + 1)
    (h.state k).ptNum ≠ 0 → (h.state k).measurement.isSome → (h.state k).route timestamp engineType = none →
      ∀ t, start ≤ t → t < stop → ∀ g, (h.state k).route t engineType = some g → toLex (stop, start) < g.key
  | .cancelDelete id => ∀ sgi ∈ (h.state k).groups, sgi.id = id → sgi.deleted →
      (∀ t, sgi.takes t sgi.engineType → ∀ g, (h.state k).route t sgi.engineType = some g →
        ∃ a b, (h.state k).groups = a ++ g :: b ∧ sgi ∈ a) ∧
      ∀ i ≤ k, ∀ t engineType, (h.state i).Routes t engineType id → (h.state k).route t engineType = none
  | _ => True

end PolicyHistory

/-! ### The list of groups -/

/-- Groups are in order and have different ids, up to the greatest one. -/
structure PolicyData.Ordered (d : PolicyData) : Prop where
  sorted : d.groups.Pairwise fun a b => a.key ≤ b.key
  nodup : (d.groups.map ShardGroupInfo.id).Nodup
  le : ∀ sgi ∈ d.groups, sgi.id ≤ d.maxShardGroupID

/-- A group that differs at most in its shards and its mark. -/
structure Same (sgi sgi' : ShardGroupInfo) : Prop where
  id : sgi'.id = sgi.id
  takes : ∀ t engineType, sgi'.takes t engineType = sgi.takes t engineType
  key : sgi'.key = sgi.key

theorem Same.refl (sgi : ShardGroupInfo) : Same sgi sgi := ⟨rfl, fun _ _ => rfl, rfl⟩

/-- A group stays what it is: a deleted one stays deleted, and only such a one is removed. -/
structure Fades (f : ShardGroupInfo → Option ShardGroupInfo) : Prop where
  none : ∀ sgi, f sgi = none → sgi.deleted = true
  same : ∀ sgi sgi', f sgi = some sgi' → Same sgi sgi'
  deleted : ∀ sgi sgi', f sgi = some sgi' → sgi.deleted = true → sgi'.deleted = true

variable {d : PolicyData}

variable {g : ShardGroupInfo}

variable {t : ℤ} {engineType : ℕ} {groups : List ShardGroupInfo} {g' : ShardGroupInfo} (id : ℕ)

theorem eq_of_id (h : d.Ordered) (hg : g ∈ d.groups) (hg' : g' ∈ d.groups) (heq : g.id = g'.id) :
    g = g' := inj_on_of_nodup_map h.nodup hg hg' heq

theorem route_eq_some (h : d.route t engineType = some g) :
    g ∈ d.groups ∧ g.takes t engineType = true ∧ g.deleted = false := by
  refine ⟨mem_of_lastMatch h, ?_⟩
  have := (lastMatch_eq_some.mp h).1
  rwa [Bool.and_eq_true, Bool.not_eq_true'] at this

theorem engineType_of_takes (h : g.takes t engineType = true) : g.engineType = engineType := by
  rw [ShardGroupInfo.takes, Bool.and_eq_true, Bool.and_eq_true, decide_eq_true_eq] at h
  exact h.1.1

/-- With different ids, changing the first group with an id is changing the group with the id. -/
theorem modifyGroup_eq (h : (groups.map ShardGroupInfo.id).Nodup) (id : ℕ) (f : ShardGroupInfo → ShardGroupInfo) :
    modifyGroup id f groups = groups.map fun sgi => if sgi.id = id then f sgi else sgi := by
  induction groups with
  | nil => rfl
  | cons g groups ih =>
    obtain ⟨hg, hgroups⟩ := nodup_cons.mp h
    rw [modifyGroup, map_cons]
    split_ifs with hid
    · have hrest : groups.map (fun sgi => if sgi.id = id then f sgi else sgi) = groups := by
        refine (map_congr_left fun sgi hsgi => ?_).trans (map_id groups)
        refine if_neg fun heq => hg ?_
        rw [hid, ← heq]
        exact mem_map_of_mem hsgi
      rw [hrest]
    · rw [ih hgroups]

theorem fades_some : Fades some where
  none sgi h := by cases h
  same sgi sgi' h := Option.some.inj h ▸ .refl sgi
  deleted sgi sgi' h hdel := Option.some.inj h ▸ hdel

theorem fades_delete (deletedAt : ℤ) :
    Fades fun sgi => some (if sgi.id = id then { sgi with deletedAt := some deletedAt } else sgi) where
  none sgi h := by cases h
  same sgi sgi' h := by
    cases h
    split_ifs
    · exact ⟨rfl, fun _ _ => rfl, rfl⟩
    · exact .refl sgi
  deleted sgi sgi' h hdel := by
    cases h
    split_ifs
    · rfl
    · exact hdel

theorem fades_prune : Fades (pruneGroup id) := by
  -- The group with its mark is the group but for its shards.
  have hmarked (sgi : ShardGroupInfo) : ∃ shards hne, pruneGroup id sgi =
      if sgi.deleted && shards.all (·.markDelete) then none
      else some { sgi with shards := shards, shards_ne := hne } := by
    unfold pruneGroup
    by_cases hid : (sgi.shards.head sgi.shards_ne).id ≤ id ∧ id ≤ (sgi.shards.getLast sgi.shards_ne).id
    · refine ⟨markShard id sgi.shards, markShard_ne_nil sgi.shards_ne, ?_⟩
      simp only [if_pos hid]
      rfl
    · refine ⟨sgi.shards, sgi.shards_ne, ?_⟩
      simp only [if_neg hid]
      rfl
  have hsome {sgi sgi' : ShardGroupInfo} (h : pruneGroup id sgi = some sgi') :
      ∃ shards hne, sgi' = { sgi with shards := shards, shards_ne := hne } := by
    obtain ⟨shards, hne, heq⟩ := hmarked sgi
    rw [heq] at h
    split_ifs at h
    cases h
    exact ⟨shards, hne, rfl⟩
  refine ⟨fun sgi h => ?_, fun g g' h => ?_, fun g g' h hdel => ?_⟩
  · obtain ⟨shards, hne, heq⟩ := hmarked sgi
    rw [heq] at h
    split_ifs at h with hc
    exact (Bool.and_eq_true _ _ ▸ hc).1
  · obtain ⟨shards, hne, rfl⟩ := hsome h
    exact ⟨rfl, fun _ _ => rfl, rfl⟩
  · obtain ⟨shards, hne, rfl⟩ := hsome h
    exact hdel

/-- The group with an id without its mark. -/
def unmarked (id : ℕ) (sgi : ShardGroupInfo) : ShardGroupInfo :=
  if sgi.id = id then { sgi with deletedAt := none } else sgi

section unmarked

variable {id : ℕ} {sgi : ShardGroupInfo}

theorem same_unmarked : Same sgi (unmarked id sgi) := by
  unfold unmarked
  split_ifs
  · exact ⟨rfl, fun _ _ => rfl, rfl⟩
  · exact .refl sgi

theorem unmarked_of_not_deleted (h : sgi.deleted = false) : unmarked id sgi = sgi := by
  unfold unmarked
  split_ifs
  · have hnone : sgi.deletedAt = none := Option.isSome_eq_false_iff.mp h |> Option.isNone_iff_eq_none.mp
    cases sgi
    cases hnone
    rfl
  · rfl

theorem unmarked_of_ne (h : sgi.id ≠ id) : unmarked id sgi = sgi := if_neg h

theorem deleted_unmarked (h : sgi.id = id) : (unmarked id sgi).deleted = false := by
  rw [unmarked, if_pos h]
  rfl

end unmarked

theorem updateRetentionPolicy_shardGroups (rpi : RetentionPolicyInfo) (rpu : RetentionPolicyUpdate) (nameTaken : Bool) :
    (updateRetentionPolicy rpi rpu nameTaken).shardGroups = rpi.shardGroups := by
  unfold updateRetentionPolicy
  extract_lets
  split_ifs <;> rfl

namespace PolicyData.Ordered

variable (hd : d.Ordered)

include hd

/-! ### Events that only take groups away -/

variable {d' : PolicyData} {f : ShardGroupInfo → Option ShardGroupInfo} {ty : ℕ}

theorem filterMap (hsame : ∀ sgi sgi', f sgi = some sgi' → Same sgi sgi') (hgroups : d'.groups = d.groups.filterMap f)
    (hmax : d'.maxShardGroupID = d.maxShardGroupID) : d'.Ordered where
  sorted := by
    refine hgroups ▸ pairwise_filterMap.mpr (hd.sorted.imp fun {a b} hab a' ha' b' hb' => ?_)
    rw [(hsame a a' ha').key, (hsame b b' hb').key]
    exact hab
  nodup := by
    refine pairwise_map.mpr (hgroups ▸ pairwise_filterMap.mpr
      ((pairwise_map.mp hd.nodup).imp fun {a b} hab a' ha' b' hb' => ?_))
    rw [(hsame a a' ha').id, (hsame b b' hb').id]
    exact hab
  le := by
    intro g hg
    obtain ⟨g0, hg0, hfg⟩ := mem_filterMap.mp (hgroups ▸ hg)
    rw [(hsame g0 g hfg).id, hmax]
    exact hd.le g0 hg0

variable {engineType : ℕ} {t timestamp : ℤ} {g : ShardGroupInfo}

/-- A time keeps its group when groups are only marked or removed. -/
theorem routes_filterMap (hf : Fades f) (hgroups : d'.groups = d.groups.filterMap f) {id : ℕ}
    (h : d.Routes t engineType id) (hlive : d'.Live id) : d'.Routes t engineType id := by
  obtain ⟨g, hg, rfl⟩ := h
  obtain ⟨g', hg', hid, hdel⟩ := hlive
  obtain ⟨g0, hg0, hfg⟩ := mem_filterMap.mp (hgroups ▸ hg')
  obtain ⟨hmem, htakes, -⟩ := route_eq_some hg
  obtain rfl := eq_of_id hd hg0 hmem ((hf.same g0 g' hfg).id.symm.trans hid)
  have hroute : d'.route t engineType = shardGroupByTimestampAndEngineType _ t engineType :=
    congrArg (shardGroupByTimestampAndEngineType · t engineType) hgroups
  refine ⟨g', hroute.trans (lastMatch_filterMap hg hfg ?_ ?_), hid⟩
  · rw [(hf.same g0 g' hfg).takes, htakes, hdel]
    rfl
  · intro y _ y' hy hq
    rw [Bool.and_eq_true, Bool.not_eq_true'] at hq ⊢
    rw [(hf.same y y' hy).takes] at hq
    refine ⟨hq.1, Bool.eq_false_iff.mpr fun hdel => ?_⟩
    exact Bool.false_ne_true (hq.2.symm.trans (hf.deleted y y' hy hdel))

theorem step_cases (e : PolicyEvent) :
    (∃ f, Fades f ∧ (d.step e).groups = d.groups.filterMap f ∧ (d.step e).maxShardGroupID = d.maxShardGroupID) ∨
      (∃ timestamp ty g, e = .create timestamp ty ∧ createdGroup d timestamp ty = some g) ∨
      ∃ id, e = .cancelDelete id := by
  cases e with
  | create timestamp ty =>
    cases h : createdGroup d timestamp ty with
    | none => exact .inl ⟨some, fades_some, by simp [PolicyData.step, createShardGroup, h]⟩
    | some g => exact .inr (.inl ⟨timestamp, ty, g, rfl, h⟩)
  | update rpu nameTaken =>
    refine .inl ⟨some, fades_some, ?_, rfl⟩
    rw [filterMap_some]
    exact updateRetentionPolicy_shardGroups ..
  | delete id deletedAt =>
    refine .inl ⟨_, fades_delete id deletedAt, ?_, rfl⟩
    rw [filterMap_eq_map', ← modifyGroup_eq hd.nodup]
    rfl
  | cancelDelete id => exact .inr (.inr ⟨id, rfl⟩)
  | prune id => exact .inl ⟨_, fades_prune id, rfl, rfl⟩

theorem cancelDelete_eq (id : ℕ) : d.step (.cancelDelete id) = d.withGroups (d.groups.map (unmarked id)) := by
  unfold unmarked
  rw [← modifyGroup_eq hd.nodup]
  rfl

/-! ### A new group -/

omit hd in
theorem createdGroup_eq_some (h : createdGroup d timestamp engineType = some g) :
    let start := truncate timestamp d.rpi.shardGroupDuration
    let stop := min (start + d.rpi.shardGroupDuration) (maxNanoTime + 1)
    g.id = d.maxShardGroupID + 1 ∧ g.deleted = false ∧
      (∀ t ty, g.takes t ty = (decide (engineType = ty) && g.contains t)) ∧
      g.key = toLex (stop, start) ∧ ∀ t, g.contains t = true ↔ start ≤ t ∧ t < stop := by
  unfold createdGroup at h
  split_ifs at h
  obtain ⟨ty, -, rfl⟩ := Option.map_eq_some_iff.mp h
  refine ⟨rfl, rfl, fun t ty => Bool.and_true _, rfl, fun t => ?_⟩
  rw [ShardGroupInfo.contains, Bool.and_eq_true, Bool.not_eq_true', decide_eq_false_iff_not, not_lt, decide_eq_true_eq]
  exact Iff.rfl

omit hd in
theorem isSome_createdGroup_iff : (createdGroup d timestamp engineType).isSome ↔
    d.ptNum ≠ 0 ∧ d.measurement.isSome ∧ d.route timestamp engineType = none := by
  unfold createdGroup
  split_ifs with hpt hroute
  · exact ⟨fun h => (by cases h), fun h => absurd hpt h.1⟩
  · refine ⟨fun h => (by cases h), fun h => ?_⟩
    rw [← Option.not_isSome_iff_eq_none] at h
    exact absurd hroute h.2.2
  · rw [Option.isSome_map, ← Option.not_isSome_iff_eq_none]
    exact ⟨fun h => ⟨hpt, h, hroute⟩, fun h => h.2.1⟩

theorem exists_create (h : createdGroup d timestamp engineType = some g) :
    ∃ a b, d.groups = a ++ b ∧ (d.step (.create timestamp engineType)).groups = a ++ g :: b ∧
      (∀ y ∈ a, y.key ≤ g.key) ∧ (∀ y ∈ b, g.key < y.key) ∧
      (d.step (.create timestamp engineType)).maxShardGroupID = d.maxShardGroupID + 1 := by
  obtain ⟨a, b, hab, hsort, ha, hb⟩ := exists_split_stableSort hd.sorted g
  refine ⟨a, b, hab, ?_, ha, hb, ?_⟩
  · rw [PolicyData.step, createShardGroup, h]
    exact hsort
  · rw [PolicyData.step, createShardGroup, h]

theorem create (h : createdGroup d timestamp engineType = some g) :
    (d.step (.create timestamp engineType)).Ordered := by
  obtain ⟨a, b, hab, hgroups, ha, hb, hmax⟩ := hd.exists_create h
  have hid := (createdGroup_eq_some h).1
  have hfresh : g.id ∉ d.groups.map ShardGroupInfo.id := by
    intro hmem
    obtain ⟨y, hy, heq⟩ := mem_map.mp hmem
    have := hd.le y hy
    omega
  have hsorted := hd.sorted
  have hnodup := hd.nodup
  have hle := hd.le
  rw [hab] at hsorted hnodup hfresh hle
  refine ⟨?_, ?_, fun y hy => ?_⟩
  · rw [hgroups]
    obtain ⟨h1, h2, h3⟩ := pairwise_append.mp hsorted
    refine pairwise_append.mpr ⟨h1, pairwise_cons.mpr ⟨fun y hy => (hb y hy).le, h2⟩, fun x hx y hy => ?_⟩
    rcases mem_cons.mp hy with rfl | hy
    · exact ha x hx
    · exact h3 x hx y hy
  · rw [hgroups, map_append]
    rw [map_append] at hnodup hfresh
    exact nodup_middle.mpr (nodup_cons.mpr ⟨hfresh, hnodup⟩)
  · rw [hgroups] at hy
    rw [hmax]
    rcases mem_cons.mp (perm_middle.mem_iff.mp hy) with rfl | hy
    · exact hid.le
    · exact (hle y hy).trans (Nat.le_succ _)

/-- **A new group**: a time keeps its group exactly if the new one does not take it or sorts before its group. -/
theorem routes_create_iff (hc : createdGroup d timestamp engineType = some g) {g' : ShardGroupInfo}
    (hg' : d.route t ty = some g') : (d.step (.create timestamp engineType)).Routes t ty g'.id ↔
      (engineType = ty → g.contains t = true → g.key < g'.key) := by
  obtain ⟨a, b, hab, hgroups, ha, hb, -⟩ := hd.exists_create hc
  obtain ⟨hid, hdel, htakes, -⟩ := createdGroup_eq_some hc
  have hle := hd.le g' (route_eq_some hg').1
  rw [PolicyData.Routes, PolicyData.route, hgroups, shardGroupByTimestampAndEngineType]
  rw [PolicyData.route, hab, shardGroupByTimestampAndEngineType] at hg'
  by_cases hg : g.takes t ty && !g.deleted
  · rw [lastMatch_insert_of_pos (p := fun sgi : ShardGroupInfo => sgi.takes t ty && !sgi.deleted) hg]
    rw [Bool.and_eq_true, htakes, Bool.and_eq_true, decide_eq_true_eq] at hg
    rw [lastMatch_append] at hg'
    cases hb' : lastMatch (fun sgi => sgi.takes t ty && !sgi.deleted) b with
    | some y =>
      rw [hb'] at hg'
      cases hg'
      exact iff_of_true ⟨_, rfl, rfl⟩ fun _ _ => hb _ (mem_of_lastMatch hb')
    | none =>
      -- The new group is the group of the time.
      rw [hb'] at hg'
      refine iff_of_false ?_ fun h => absurd (h hg.1.1 hg.1.2) (not_lt.mpr (ha g' (mem_of_lastMatch hg')))
      rintro ⟨y, hy, hyid⟩
      cases hy
      omega
  · rw [lastMatch_insert_of_neg (p := fun sgi : ShardGroupInfo => sgi.takes t ty && !sgi.deleted) hg]
    refine iff_of_true ⟨g', hg', rfl⟩ fun hty ht => ?_
    rw [htakes, hdel, ht, decide_eq_true hty] at hg
    exact absurd rfl hg

/-! ### A cancelled deletion -/

theorem cancelDelete (id : ℕ) : (d.step (.cancelDelete id)).Ordered := by
  rw [hd.cancelDelete_eq, ← filterMap_eq_map']
  exact hd.filterMap (fun g g' h => Option.some.inj h ▸ same_unmarked) rfl rfl

/-- **A group that comes back**: a time keeps its group exactly if each such group that takes it stands before its
group. -/
theorem routes_cancelDelete_iff {id : ℕ} (hg : d.route t ty = some g) :
    (d.step (.cancelDelete id)).Routes t ty g.id ↔ ∀ sgi ∈ d.groups, sgi.id = id → sgi.deleted = true →
      sgi.takes t ty = true → ∃ a b, d.groups = a ++ g :: b ∧ sgi ∈ a := by
  obtain ⟨hmem, htakes, hdel⟩ := route_eq_some hg
  obtain ⟨-, a, b, hab, hb⟩ := lastMatch_eq_some.mp hg
  have hnodup : d.groups.Nodup := hd.nodup.of_map
  rw [hab, nodup_middle, nodup_cons, mem_append, not_or] at hnodup
  have hroute : (d.step (.cancelDelete id)).route t ty =
      (lastMatch (fun sgi => sgi.takes t ty && !sgi.deleted) (b.map (unmarked id))).or (some g) := by
    rw [hd.cancelDelete_eq]
    rw [hab, map_append, map_cons, unmarked_of_not_deleted hdel]
    exact lastMatch_insert_of_pos (by rw [htakes, hdel]; rfl)
  rw [PolicyData.Routes, hroute]
  cases hlast : lastMatch (fun sgi => sgi.takes t ty && !sgi.deleted) (b.map (unmarked id)) with
  | none =>
    refine iff_of_true ⟨g, rfl, rfl⟩ fun sgi hsgi hid hsdel ht => ⟨a, b, hab, ?_⟩
    rw [hab, mem_append, mem_cons] at hsgi
    rcases hsgi with ha | rfl | hsb
    · exact ha
    · exact absurd (hsdel.symm.trans hdel) Bool.noConfusion
    · have hnot := lastMatch_eq_none.mp hlast _ (mem_map_of_mem hsb)
      rw [same_unmarked.takes, ht, deleted_unmarked hid] at hnot
      exact absurd rfl hnot
  | some z =>
    -- A group behind takes the time.
    obtain ⟨y, hy, rfl⟩ := mem_map.mp (mem_of_lastMatch hlast)
    have hytakes := (lastMatch_eq_some.mp hlast).1
    rw [same_unmarked.takes, Bool.and_eq_true] at hytakes
    have hymem : y ∈ d.groups := hab ▸ mem_append_right _ (mem_cons_of_mem _ hy)
    refine iff_of_false ?_ fun h => ?_
    · rintro ⟨w, hw, hid⟩
      cases hw
      rw [same_unmarked.id] at hid
      exact hnodup.1.2 (eq_of_id hd hymem hmem hid ▸ hy)
    · have hydel : y.deleted = true := by
        by_contra hne
        exact hb y hy (by rw [hytakes.1, Bool.eq_false_iff.mpr hne]; rfl)
      have hid : y.id = id := by
        by_contra hne
        rw [unmarked_of_ne hne, hydel] at hytakes
        exact Bool.false_ne_true hytakes.2
      obtain ⟨a', b', hab', hya⟩ := h y hymem hid hydel hytakes.1
      obtain ⟨rfl, -, -⟩ := (append_cons_inj_of_notMem hnodup.1.1 hnodup.1.2).mp (hab.symm.trans hab')
      exact (nodup_append.mp hnodup.2).2.2 y hya y hy rfl

/-- A time that is written nowhere is written to the group that comes back. -/
theorem routes_unmarked {sgi : ShardGroupInfo} (hsgi : sgi ∈ d.groups) (htakes : sgi.takes t ty = true)
    (hnone : d.route t ty = none) : (d.step (.cancelDelete sgi.id)).Routes t ty sgi.id := by
  rw [hd.cancelDelete_eq]
  have hmem : unmarked sgi.id sgi ∈ d.groups.map (unmarked sgi.id) := mem_map_of_mem hsgi
  cases hroute : (d.withGroups (d.groups.map (unmarked sgi.id))).route t ty with
  | none =>
    have hnot := lastMatch_eq_none.mp hroute _ hmem
    rw [same_unmarked.takes, htakes, deleted_unmarked rfl] at hnot
    exact absurd rfl hnot
  | some y =>
    obtain ⟨hy, hytakes, hydel⟩ := route_eq_some hroute
    obtain ⟨z, hz, rfl⟩ := mem_map.mp hy
    refine ⟨_, hroute, ?_⟩
    rw [same_unmarked.id]
    by_contra hne
    rw [unmarked_of_ne hne] at hytakes hydel
    refine lastMatch_eq_none.mp hnone z hz ?_
    rw [hytakes, hydel]
    rfl

/-! ### One event -/

variable (e : PolicyEvent)

theorem step : (d.step e).Ordered := by
  obtain ⟨f, hf, hgroups, hmax⟩ | ⟨timestamp, ty, g, rfl, hc⟩ | ⟨id, rfl⟩ := hd.step_cases e
  · exact hd.filterMap hf.same hgroups hmax
  · exact hd.create hc
  · exact hd.cancelDelete id

theorem exists_origin {g' : ShardGroupInfo} (hg' : g' ∈ (d.step e).groups) :
    g'.id = d.maxShardGroupID + 1 ∨ ∃ g ∈ d.groups, Same g g' ∧
        (g.deleted = true → g'.deleted = false → e = .cancelDelete g.id) := by
  obtain ⟨f, hf, hgroups, -⟩ | ⟨timestamp, ty, g, rfl, hc⟩ | ⟨id, rfl⟩ := hd.step_cases e
  · obtain ⟨g, hg, hfg⟩ := mem_filterMap.mp (hgroups ▸ hg')
    refine .inr ⟨g, hg, hf.same g g' hfg, fun h1 h2 => ?_⟩
    exact absurd ((hf.deleted g g' hfg h1).symm.trans h2) Bool.noConfusion
  · obtain ⟨a, b, hab, hgroups, -, -, -⟩ := hd.exists_create hc
    rw [hgroups, perm_middle.mem_iff, mem_cons, ← hab] at hg'
    rcases hg' with rfl | hg'
    · exact .inl (createdGroup_eq_some hc).1
    · exact .inr ⟨g', hg', .refl g', fun h1 h2 => absurd (h1.symm.trans h2) Bool.noConfusion⟩
  · rw [hd.cancelDelete_eq] at hg'
    obtain ⟨g, hg, rfl⟩ := mem_map.mp hg'
    refine .inr ⟨g, hg, same_unmarked, fun h1 h2 => ?_⟩
    by_cases hid : g.id = id
    · rw [hid]
    · rw [unmarked_of_ne hid, h1] at h2
      cases h2

theorem le_maxShardGroupID_step : d.maxShardGroupID ≤ (d.step e).maxShardGroupID := by
  obtain ⟨f, -, -, hmax⟩ | ⟨timestamp, ty, g, rfl, hc⟩ | ⟨id, rfl⟩ := hd.step_cases e
  · exact hmax.ge
  · obtain ⟨-, -, -, -, -, -, hmax⟩ := hd.exists_create hc
    exact hmax ▸ Nat.le_succ _
  · exact le_rfl

end PolicyData.Ordered

/-! ### Whole histories -/

namespace PolicyHistory

variable {h : PolicyHistory}

variable {e : PolicyEvent} {g : ShardGroupInfo}

variable {i k j ty : ℕ}

theorem state_succ (he : h.events[k]? = some e) : h.state (k + 1) = (h.state k).step e := by
  rw [state, take_add_one, he]
  exact foldl_concat ..

variable (h)

theorem ordered (k : ℕ) (hk : k ≤ h.events.length) : (h.state k).Ordered := by
  induction k with
  | zero =>
    have hempty : (h.state 0).groups = [] := h.empty
    exact ⟨by simp [hempty], by simp [hempty], by simp [hempty]⟩
  | succ k ih => exact state_succ (getElem?_eq_getElem hk) ▸ (ih (Nat.le_of_succ_le hk)).step _

variable {h}

theorem maxShardGroupID_mono (hij : i ≤ j) (hj : j ≤ h.events.length) :
    (h.state i).maxShardGroupID ≤ (h.state j).maxShardGroupID := by
  induction j, hij using Nat.le_induction with
  | base => exact le_rfl
  | succ j hij ih =>
    rw [state_succ (getElem?_eq_getElem hj)]
    exact (ih (Nat.le_of_succ_le hj)).trans ((h.ordered j (Nat.le_of_succ_le hj)).le_maxShardGroupID_step _)

theorem exists_origin (hik : i ≤ k) (he : h.events[k]? = some e) {g' : ShardGroupInfo} (hg : g ∈ (h.state i).groups)
    (hg' : g' ∈ (h.state (k + 1)).groups) (hid : g.id = g'.id) :
    ∃ g0 ∈ (h.state k).groups, g.id = g0.id ∧ Same g0 g' ∧
      (g0.deleted = true → g'.deleted = false → e = .cancelDelete g0.id) := by
  have hk : k < h.events.length := List.getElem?_eq_some_iff.mp he |>.1
  rw [state_succ he] at hg'
  rcases (h.ordered k hk.le).exists_origin e hg' with hnew | ⟨g0, hg0, hsame, hdel⟩
  · have h1 := (h.ordered i (hik.trans hk.le)).le g hg
    have h2 := maxShardGroupID_mono hik hk.le
    omega
  · exact ⟨g0, hg0, hid.trans hsame.id, hsame, hdel⟩

theorem takes_eq (hij : i ≤ j) (hj : j ≤ h.events.length) {g' : ShardGroupInfo} (hg : g ∈ (h.state i).groups)
    (hg' : g' ∈ (h.state j).groups) (hid : g.id = g'.id) (t : ℤ) (ty : ℕ) : g.takes t ty = g'.takes t ty := by
  induction j, hij using Nat.le_induction generalizing g' with
  | base => rw [eq_of_id (h.ordered i hj) hg hg' hid]
  | succ j hij ih =>
    obtain ⟨g0, hg0, hid0, hsame, -⟩ := exists_origin hij (getElem?_eq_getElem hj) hg hg' hid
    exact (ih (Nat.le_of_succ_le hj) hg0 hid0).trans (hsame.takes t ty).symm

theorem routes_succ (he : h.events[k]? = some e) (hok : h.Allows k e) {t : ℤ} {id : ℕ}
    (hroutes : (h.state k).Routes t ty id) (hlive : (h.state (k + 1)).Live id) : (h.state (k + 1)).Routes t ty id := by
  have hd := h.ordered k (List.getElem?_eq_some_iff.mp he).1.le
  rw [state_succ he] at hlive ⊢
  obtain ⟨f, hf, hgroups, -⟩ | ⟨timestamp, ty, sgi, rfl, hc⟩ | ⟨id', rfl⟩ := hd.step_cases e
  · exact hd.routes_filterMap hf hgroups hroutes hlive
  · obtain ⟨g, hg, rfl⟩ := hroutes
    refine (hd.routes_create_iff hc hg).mpr fun hty ht => ?_
    subst hty
    obtain ⟨hpt, hm, hnone⟩ := PolicyData.Ordered.isSome_createdGroup_iff.mp (Option.isSome_of_eq_some hc)
    obtain ⟨-, -, -, hkey, hcontains⟩ := PolicyData.Ordered.createdGroup_eq_some hc
    obtain ⟨hstart, hstop⟩ := (hcontains t).mp ht
    rw [hkey]
    exact hok hpt hm hnone t hstart hstop g hg
  · obtain ⟨g, hg, rfl⟩ := hroutes
    refine (hd.routes_cancelDelete_iff hg).mpr fun sgi hsgi hid hdel htakes => ?_
    obtain rfl := engineType_of_takes htakes
    exact (hok sgi hsgi hid hdel).1 t htakes g hg

theorem routes_back (hik : i ≤ k) (he : h.events[k]? = some e) (hok : h.Allows k e) {t : ℤ} {id : ℕ}
    (hroutes : (h.state i).Routes t ty id) (hnot : ¬ (h.state k).Live id) (hlive : (h.state (k + 1)).Live id) :
    (h.state (k + 1)).Routes t ty id := by
  have hk : k < h.events.length := List.getElem?_eq_some_iff.mp he |>.1
  obtain ⟨g, hg, rfl⟩ := hroutes
  obtain ⟨hmem, htakes, -⟩ := route_eq_some hg
  obtain ⟨g', hg', hid, hdel'⟩ := hlive
  obtain ⟨g0, hg0, hid0, -, hcancel⟩ := exists_origin hik he hmem hg' hid.symm
  have hdel0 : g0.deleted = true := by
    by_contra hne
    exact hnot ⟨g0, hg0, hid0.symm, Bool.eq_false_iff.mpr hne⟩
  obtain rfl := hcancel hdel0 hdel'
  rw [takes_eq hik hk.le hmem hg0 hid0 t ty] at htakes
  rw [state_succ he, hid0]
  exact (h.ordered k hk.le).routes_unmarked hg0 htakes ((hok g0 hg0 rfl hdel0).2 i hik t ty ⟨g, hg, hid0⟩)

/-- A group that is written to is still there after a group is added or comes back. -/
theorem live_succ (he : h.events[k]? = some e) (hg : g ∈ (h.state k).groups) (hdel : g.deleted = false)
    (hkeep : (∃ timestamp ty, e = .create timestamp ty) ∨ ∃ id, e = .cancelDelete id) :
    (h.state (k + 1)).Live g.id := by
  have hd := h.ordered k (List.getElem?_eq_some_iff.mp he).1.le
  rw [state_succ he]
  rcases hkeep with ⟨timestamp, ty, rfl⟩ | ⟨id, rfl⟩
  · refine ⟨g, ?_, rfl, hdel⟩
    cases hc : createdGroup (h.state k) timestamp ty with
    | none =>
      rw [PolicyData.step, createShardGroup, hc]
      exact hg
    | some g' =>
      obtain ⟨a, b, hab, hgroups, -, -, -⟩ := hd.exists_create hc
      rw [hgroups, perm_middle.mem_iff, ← hab]
      exact mem_cons_of_mem _ hg
  · rw [hd.cancelDelete_eq]
    exact ⟨g, mem_map.mpr ⟨g, hg, unmarked_of_not_deleted hdel⟩, rfl, hdel⟩

/-- **A timestamp keeps its group as long as the group is there and not deleted**, exactly if every new group sorts
before those that have its times, and a group comes back only before those that have its times and only with the times
it had. -/
theorem stable_iff (h : PolicyHistory) : h.Stable ↔ ∀ k e, h.events[k]? = some e → h.Allows k e := by
  constructor
  · intro hstable k e he
    have hk : k < h.events.length := List.getElem?_eq_some_iff.mp he |>.1
    have hd := h.ordered k hk.le
    -- The group of a time stays the group of the time.
    have hstay {t : ℤ} {ty : ℕ} {g : ShardGroupInfo} (hg : (h.state k).route t ty = some g)
        (hkeep : (∃ timestamp ty, e = .create timestamp ty) ∨ ∃ id, e = .cancelDelete id) :
        ((h.state k).step e).Routes t ty g.id := by
      obtain ⟨hmem, -, hdel⟩ := route_eq_some hg
      rw [← state_succ he]
      exact hstable k (k + 1) (Nat.le_succ k) hk t ty g.id ⟨g, hg, rfl⟩ (live_succ he hmem hdel hkeep)
    cases e with
    | create timestamp engineType =>
      intro hpt hm hnone t hstart hstop g hg
      obtain ⟨sgi, hc⟩ := Option.isSome_iff_exists.mp (PolicyData.Ordered.isSome_createdGroup_iff.mpr ⟨hpt, hm, hnone⟩)
      obtain ⟨-, -, -, hkey, hcontains⟩ := PolicyData.Ordered.createdGroup_eq_some hc
      rw [← hkey]
      exact (hd.routes_create_iff hc hg).mp (hstay hg (.inl ⟨timestamp, engineType, rfl⟩)) rfl
        ((hcontains t).mpr ⟨hstart, hstop⟩)
    | cancelDelete id =>
      rintro sgi hsgi rfl hdel
      refine ⟨fun t ht g hg => ?_, fun i hik t ty hroutes => ?_⟩
      · exact (hd.routes_cancelDelete_iff hg).mp (hstay hg (.inr ⟨sgi.id, rfl⟩)) sgi hsgi rfl hdel ht
      · have hlive : (h.state (k + 1)).Live sgi.id := by
          rw [state_succ he, hd.cancelDelete_eq]
          exact ⟨_, mem_map_of_mem hsgi, same_unmarked.id, deleted_unmarked rfl⟩
        have hback := hstable i (k + 1) (hik.trans (Nat.le_succ k)) hk t ty sgi.id hroutes hlive
        rw [state_succ he] at hback
        obtain ⟨y, hy, hyid⟩ := hback
        by_contra hne
        obtain ⟨g, hg⟩ := Option.ne_none_iff_exists'.mp hne
        obtain ⟨hmem, -, hgdel⟩ := route_eq_some hg
        obtain ⟨y', hy', hyid'⟩ := hstay hg (.inr ⟨sgi.id, rfl⟩)
        cases hy.symm.trans hy'
        rw [eq_of_id hd hsgi hmem (hyid.symm.trans hyid'), hgdel] at hdel
        cases hdel
    | update rpu nameTaken | delete id deletedAt | prune id => trivial
  · intro hok i j hij
    induction j, hij using Nat.le_induction with
    | base => exact fun _ t ty id hroutes _ => hroutes
    | succ j hij ih =>
      intro hj t ty id hroutes hlive
      have he := getElem?_eq_getElem hj
      by_cases hbefore : (h.state j).Live id
      · exact routes_succ he (hok j _ he) (ih (Nat.le_of_succ_le hj) t ty id hroutes hbefore) hlive
      · exact routes_back hij he (hok j _ he) hroutes hbefore hlive

end PolicyHistory

/-! ### A longer duration -/

/-- A policy with groups of an hour gets groups of a day. -/
def widened : PolicyHistory where
  start := ⟨1, some .hash, 0, 0, ⟨0, hour, 0, 0, [], false⟩⟩
  empty := rfl
  events := [.create 0 0, .update ⟨none, some (24 * hour), none, none⟩ false, .create (5 * hour) 0]

/-- **A timestamp moves to another group although its group is there and not deleted.** -/
theorem widened_moves : (widened.state 1).Routes 0 0 1 ∧ (widened.state 3).Live 1 ∧ (widened.state 3).Routes 0 0 2 ∧
    ¬ widened.Stable := by
  have hroutes : (widened.state 1).Routes 0 0 1 := ⟨_, rfl, rfl⟩
  have hlive : (widened.state 3).Live 1 := ⟨_, mem_cons_self, rfl, rfl⟩
  have hmoved : (widened.state 3).Routes 0 0 2 := ⟨_, rfl, rfl⟩
  refine ⟨hroutes, hlive, hmoved, fun hstable => ?_⟩
  obtain ⟨g, hg, hid⟩ := hstable 1 3 (by decide) (by decide) 0 0 1 hroutes hlive
  obtain ⟨g', hg', hid'⟩ := hmoved
  cases hg.symm.trans hg'
  omega

end GeminiTS.Meta
