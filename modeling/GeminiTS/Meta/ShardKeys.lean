import GeminiTS.Meta.Catalog

/-!
# ShardKeys — the shard key of a group

A measurement keeps its shard keys, each with the id of the first shard group it is for (`AlterShardKey` and
`createVersionMeasurement` in `lib/util/lifted/influx/meta/data.go`, `GetShardKey` in `measurement.go`). The ids come
from a counter that all policies share, and a key that no group has used yet is overwritten.

* `shardKey_kept` — every group has a key in every measurement, and a change of the key leaves it as it is.
-/

namespace GeminiTS.Catalog

open Lib List

/-- `GetShardKey`: the last key that is for the group or for an earlier one. -/
def MeasurementInfo.getShardKey (m : MeasurementInfo) (id : ℕ) : Option ShardKeyInfo :=
  lastMatch (·.shardGroup ≤ id) m.shardKeys

namespace RetentionPolicyInfo

variable (rp : RetentionPolicyInfo)

def maxShardGroupID : ℕ := (rp.shardGroups.map (·.id)).max?.getD 0

/-- One more key, in the place of the last one if no group is as late as that. -/
def addShardKey (ski : ShardKeyInfo) (m : MeasurementInfo) : MeasurementInfo :=
  { m with shardKeys :=
      if rp.shardGroups = [] ∨ m.shardKeys.getLast?.any (rp.maxShardGroupID < ·.shardGroup) then
        m.shardKeys.dropLast ++ [ski]
      else m.shardKeys ++ [ski] }

end RetentionPolicyInfo

inductive AlterError
  | measurementNotFound
  | invalid (err : MetaError)

/-- `AlterShardKey`. It panics at a measurement without keys. -/
def alterShardKey (ord : Order) (d : Data) (rp : RetentionPolicyInfo) (mst : String) (shardKey : Option ShardKeyInfo) :
    Option (Except AlterError RetentionPolicyInfo) :=
  match (measurement rp mst).filter fun msti => ! msti.markDeleted with
  | none => some (.error .measurementNotFound)
  | some msti => msti.shardKeys.getLast?.map fun last =>
    let ski : ShardKeyInfo :=
      ⟨(shardKey.map (·.shardKey)).getD [], (shardKey.map (·.type)).getD (.other ""), d.maxShardGroupID + 1⟩
    if ski.type ≠ last.type then .error (.invalid (.shardingTypeNotEqual ski.type last.type))
    else if ski.shardKey = last.shardKey then .ok rp
    else match validMeasurementShardType ord rp ski.type mst with
      | some err => .error (.invalid err)
      | none => .ok { rp with measurements := rp.measurements.map fun m =>
          if m.mst = mst ∧ rp.mstVersions mst = some m.version then rp.addShardKey ski m else m }

/-- The commands on a policy; elsewhere the counters of the data go on. -/
inductive KeyCommand
  | createMeasurement (ord : Order) (mst : String) (shardKey : ShardKeyInfo) (numOfShards : ℤ) (colStore : Bool)
  | alterShardKey (ord : Order) (mst : String) (shardKey : Option ShardKeyInfo)
  | createShardGroup (ord : Order) (timestamp : ℤ) (engineType : ℕ)
  | deleteShardGroup (id : ℕ) (deletedAt : Option ℤ)
  | pruneGroups (shardGroup : Bool) (id : ℕ)
  | elsewhere (data : Data)

/-- The data and the policy after a command. An error changes nothing. -/
def KeyCommand.step (perm : String × ℕ → ℕ → List ℕ) (s : Data × RetentionPolicyInfo) :
    KeyCommand → Option (Data × RetentionPolicyInfo)
  | createMeasurement ord mst shardKey numOfShards colStore =>
    (Catalog.createMeasurement perm ord s.1 s.2 mst (some shardKey) numOfShards colStore).map (·.toOption.getD s)
  | alterShardKey ord mst shardKey =>
    (Catalog.alterShardKey ord s.1 s.2 mst shardKey).map fun r => (s.1, r.toOption.getD s.2)
  | createShardGroup ord timestamp engineType =>
    (Catalog.createShardGroup perm ord s.1 s.2 timestamp engineType).map (·.toOption.getD s)
  | deleteShardGroup id deletedAt => some (s.1, Catalog.deleteShardGroup id deletedAt s.2)
  | pruneGroups shardGroup id => (if shardGroup then pruneShardGroups id s.2 else pruneIndexGroups id s.2).map (s.1, ·)
  | elsewhere data => some ({ data with maxShardGroupID := max s.1.maxShardGroupID data.maxShardGroupID }, s.2)

/-! ### One more key -/

section AddShardKey

variable {rp : RetentionPolicyInfo} {g : ShardGroupInfo} (hg : g ∈ rp.shardGroups)

include hg

theorem le_maxShardGroupID : g.id ≤ rp.maxShardGroupID := le_max?_getD_of_mem (mem_map_of_mem hg)

/-- A key for later groups does not change the one of a group that is there. -/
theorem getShardKey_addShardKey {ski : ShardKeyInfo} (hski : g.id < ski.shardGroup) (m : MeasurementInfo) :
    (rp.addShardKey ski m).getShardKey g.id = m.getShardKey g.id := by
  have hconcat (ks : List ShardKeyInfo) (k : ShardKeyInfo) (hk : g.id < k.shardGroup) :
      lastMatch (·.shardGroup ≤ g.id) (ks ++ [k]) = lastMatch (·.shardGroup ≤ g.id) ks := by
    rw [lastMatch_append, lastMatch_eq_none.mpr (by simpa using hk), Option.none_or]
  rw [RetentionPolicyInfo.addShardKey, MeasurementInfo.getShardKey, MeasurementInfo.getShardKey]
  split_ifs with h
  · obtain ⟨last, hlast, hlt⟩ := (Option.any_eq_true _ _).mp (h.resolve_left (ne_nil_of_mem hg))
    obtain ⟨init, hinit⟩ := getLast?_eq_some_iff.mp hlast
    rw [hinit, dropLast_concat, hconcat init ski hski,
      hconcat init last ((le_maxShardGroupID hg).trans_lt (of_decide_eq_true hlt))]
  · exact hconcat _ ski hski

end AddShardKey

/-- The groups have ids up to the counter, and each measurement has a key that is for all of them and for the next. -/
structure Keyed (s : Data × RetentionPolicyInfo) : Prop where
  ids : ∀ g ∈ s.2.shardGroups, g.id ≤ s.1.maxShardGroupID
  keys : ∀ m ∈ s.2.measurements, ∃ k ∈ m.shardKeys, k.shardGroup ≤ s.1.maxShardGroupID + 1 ∧
    ∀ g ∈ s.2.shardGroups, k.shardGroup ≤ g.id

namespace Keyed

variable {s : Data × RetentionPolicyInfo} (h : Keyed s)

include h

theorem isSome_getShardKey : ∀ g ∈ s.2.shardGroups, ∀ m ∈ s.2.measurements, (m.getShardKey g.id).isSome := by
  intro g hg m hm
  obtain ⟨k, hk, -, hall⟩ := h.keys m hm
  rw [Option.isSome_iff_ne_none, MeasurementInfo.getShardKey, Ne, lastMatch_eq_none]
  exact fun hnone => hnone k hk (decide_eq_true (hall g hg))

theorem mono {s' : Data × RetentionPolicyInfo} (hmax : s.1.maxShardGroupID ≤ s'.1.maxShardGroupID)
    (hids : ∀ g ∈ s'.2.shardGroups, g.id ≤ s'.1.maxShardGroupID ∧
      (g.id = s.1.maxShardGroupID + 1 ∨ ∃ g0 ∈ s.2.shardGroups, g0.id = g.id))
    (hkeys : ∀ m ∈ s'.2.measurements, ∃ m0 ∈ s.2.measurements, m0.shardKeys = m.shardKeys) : Keyed s' where
  ids g hg := (hids g hg).1
  keys m hm := by
    obtain ⟨m0, hm0, heq⟩ := hkeys m hm
    obtain ⟨k, hk, hle, hall⟩ := h.keys m0 hm0
    refine ⟨k, heq ▸ hk, by omega, fun g hg => ?_⟩
    rcases (hids g hg).2 with hid | ⟨g0, hg0, hid⟩
    · exact hid ▸ hle
    · exact hid ▸ hall g0 hg0

theorem sub {rp : RetentionPolicyInfo} (hids : ∀ g ∈ rp.shardGroups, ∃ g0 ∈ s.2.shardGroups, g0.id = g.id)
    (hkeys : ∀ m ∈ rp.measurements, ∃ m0 ∈ s.2.measurements, m0.shardKeys = m.shardKeys) : Keyed (s.1, rp) := by
  refine h.mono (le_refl _) (fun g hg => ⟨?_, .inr (hids g hg)⟩) hkeys
  obtain ⟨g0, hg0, hid⟩ := hids g hg
  exact hid ▸ h.ids g0 hg0

theorem addShardKey {m : MeasurementInfo} (hm : m ∈ s.2.measurements) {ski : ShardKeyInfo}
    (hski : ski.shardGroup = s.1.maxShardGroupID + 1) : ∃ k ∈ (s.2.addShardKey ski m).shardKeys,
      k.shardGroup ≤ s.1.maxShardGroupID + 1 ∧ ∀ g ∈ s.2.shardGroups, k.shardGroup ≤ g.id := by
  obtain ⟨k, hk, hle, hall⟩ := h.keys m hm
  rw [RetentionPolicyInfo.addShardKey]
  split_ifs with hc
  · by_cases hkept : k ∈ m.shardKeys.dropLast
    · exact ⟨k, mem_append_left _ hkept, hle, hall⟩
    · refine ⟨ski, mem_append_right _ mem_cons_self, hski.le, fun g hg => ?_⟩
      obtain ⟨last, hlast, hlt⟩ := (Option.any_eq_true _ _).mp (hc.resolve_left (ne_nil_of_mem hg))
      obtain ⟨init, hinit⟩ := getLast?_eq_some_iff.mp hlast
      rw [hinit, dropLast_concat] at hkept
      rw [hinit] at hk
      cases mem_singleton.mp ((mem_append.mp hk).resolve_left hkept)
      exact absurd (hall g hg) (not_le.mpr ((le_maxShardGroupID hg).trans_lt (of_decide_eq_true hlt)))
  · exact ⟨k, mem_append_left _ hk, hle, hall⟩

end Keyed

/-! ### The commands -/

theorem shardKeys_mapGroups {perm : String × ℕ → ℕ → List ℕ} {sgs : List ShardGroupInfo} {m m' : MeasurementInfo}
    (h : sgs.foldlM (fun m sg => MeasurementInfo.mapGroup perm sg m) m = some m') : m'.shardKeys = m.shardKeys := by
  induction sgs generalizing m with
  | nil =>
    cases h
    rfl
  | cons sg sgs ih =>
    obtain ⟨m1, hm1, hrest⟩ := Option.bind_eq_some_iff.mp h
    exact (ih hrest).trans (shardKeys_mapGroup hm1)

theorem alterShardKey_cases {ord : Order} {d : Data} {rp : RetentionPolicyInfo} {mst : String}
    {shardKey : Option ShardKeyInfo} {r : Except AlterError RetentionPolicyInfo}
    (h : alterShardKey ord d rp mst shardKey = some r) : ∃ f : MeasurementInfo → MeasurementInfo,
      r.toOption.getD rp = { rp with measurements := rp.measurements.map f } ∧
      ∀ m, f m = m ∨ ∃ ski, ski.shardGroup = d.maxShardGroupID + 1 ∧ f m = rp.addShardKey ski m := by
  have hid : rp = { rp with measurements := rp.measurements.map id } := by rw [map_id]
  unfold alterShardKey at h
  split at h
  · cases h
    exact ⟨id, hid, fun _ => .inl rfl⟩
  obtain ⟨last, -, rfl⟩ := Option.map_eq_some_iff.mp h
  dsimp only
  split_ifs
  · exact ⟨id, hid, fun _ => .inl rfl⟩
  · exact ⟨id, hid, fun _ => .inl rfl⟩
  split
  · exact ⟨id, hid, fun _ => .inl rfl⟩
  · refine ⟨_, rfl, fun m => ?_⟩
    split_ifs
    · exact .inr ⟨_, rfl, rfl⟩
    · exact .inl rfl

namespace Keyed

variable {perm : String × ℕ → ℕ → List ℕ} {ord : Order} {s s' : Data × RetentionPolicyInfo} (h : Keyed s)

include h

theorem of_result {x : Option (Except MetaError (Data × RetentionPolicyInfo))}
    (hx : ∀ s', x = some (.ok s') → Keyed s') (hs : x.map (·.toOption.getD s) = some s') : Keyed s' := by
  obtain ⟨r, hr, rfl⟩ := Option.map_eq_some_iff.mp hs
  cases r with
  | error _ => exact h
  | ok s' => exact hx s' hr

/-- The key of a new measurement is for all groups, or for the next one if there is none. -/
theorem createMeasurement {mst : String} {shardKey : ShardKeyInfo} {n : ℤ} {colStore : Bool}
    (hs : Catalog.createMeasurement perm ord s.1 s.2 mst (some shardKey) n colStore = some (.ok s')) : Keyed s' := by
  unfold Catalog.createMeasurement at hs
  split at hs
  · cases hs
  split_ifs at hs
  · cases hs
  split at hs
  · obtain ⟨rp, hrp, heq⟩ := Option.map_eq_some_iff.mp hs
    cases heq
    obtain ⟨msti, hfold, rfl⟩ := Option.map_eq_some_iff.mp hrp
    refine ⟨h.ids, forall_mem_append.mpr ⟨fun m hm => h.keys m (mem_of_mem_filter hm), forall_mem_singleton.mpr ?_⟩⟩
    rw [shardKeys_mapGroups hfold]
    refine ⟨_, mem_cons_self, ?_⟩
    by_cases hnil : s.2.shardGroups = []
    · simp [hnil]
    · simp [hnil]
  · split_ifs at hs
    · cases hs
      exact h
    · cases hs

theorem createShardGroup {timestamp : ℤ} {engineType : ℕ}
    (hs : Catalog.createShardGroup perm ord s.1 s.2 timestamp engineType = some (.ok s')) : Keyed s' := by
  obtain ⟨-, ⟨hd, hrp⟩ | ⟨msti, igi, d1, rp1, msts, hi, hd, hrp, hkeys⟩⟩ := createShardGroup_ok hs
  · exact (Prod.ext hd hrp) ▸ h
  obtain ⟨-, hd1, hrp1⟩ := createIndexGroupIfNeeded_frame hi
  have hmax : d1.maxShardGroupID = s.1.maxShardGroupID := by rw [hd1]
  have hmax' : s'.1.maxShardGroupID = s.1.maxShardGroupID + 1 := by rw [hd, hmax]
  have hgroups : rp1.shardGroups = s.2.shardGroups := by rw [hrp1]
  have hmsts : rp1.measurements = s.2.measurements := by rw [hrp1]
  refine h.mono (by omega) (fun g hg => ?_) (by rw [hrp, ← hmsts]; exact hkeys)
  rw [hrp] at hg
  rcases mem_append.mp ((stableSort_perm _ _).mem_iff.mp hg) with hg | hg
  · rw [hgroups] at hg
    exact ⟨hmax' ▸ (h.ids g hg).trans (Nat.le_succ _), .inr ⟨g, hg, rfl⟩⟩
  · rw [mem_singleton.mp hg, hmax', ← hmax]
    exact ⟨le_refl _, .inl rfl⟩

theorem alterShardKey {mst : String} {shardKey : Option ShardKeyInfo} {r : Except AlterError RetentionPolicyInfo}
    (hs : Catalog.alterShardKey ord s.1 s.2 mst shardKey = some r) : Keyed (s.1, r.toOption.getD s.2) := by
  obtain ⟨f, hf, hcases⟩ := alterShardKey_cases hs
  rw [hf]
  refine ⟨h.ids, forall_mem_map.mpr fun m hm => ?_⟩
  rcases hcases m with heq | ⟨ski, hski, heq⟩
  · rw [heq]
    exact h.keys m hm
  · rw [heq]
    exact h.addShardKey hm hski

theorem pruneShardGroups {id : ℕ} {rp : RetentionPolicyInfo} (hs : Catalog.pruneShardGroups id s.2 = some rp) :
    Keyed (s.1, rp) := by
  obtain ⟨sgs, hsgs, rfl⟩ := Option.map_eq_some_iff.mp hs
  refine h.sub (fun g hg => ?_) (forall_mem_map.mpr fun m hm => ⟨m, hm, rfl⟩)
  obtain ⟨g0, hg0, hmark⟩ := exists_of_mem_mapM hsgs (mem_of_mem_filter hg)
  obtain ⟨shards, -, rfl⟩ := Option.map_eq_some_iff.mp hmark
  exact ⟨g0, hg0, rfl⟩

theorem step {c : KeyCommand} (hs : c.step perm s = some s') : Keyed s' := by
  cases c with
  | createMeasurement => exact h.of_result (fun _ => h.createMeasurement) hs
  | createShardGroup => exact h.of_result (fun _ => h.createShardGroup) hs
  | alterShardKey =>
    obtain ⟨r, hr, rfl⟩ := Option.map_eq_some_iff.mp hs
    exact h.alterShardKey hr
  | deleteShardGroup id deletedAt =>
    cases hs
    refine h.sub (fun g hg => ?_) fun m hm => ⟨m, hm, rfl⟩
    obtain ⟨i, hi⟩ := mem_iff_getElem?.mp hg
    rw [Catalog.deleteShardGroup, getElem?_modify] at hi
    obtain ⟨g0, hg0, rfl⟩ := Option.map_eq_some_iff.mp hi
    exact ⟨g0, mem_of_getElem? hg0, by split_ifs <;> rfl⟩
  | pruneGroups shardGroup id =>
    obtain ⟨rp, hrp, rfl⟩ := Option.map_eq_some_iff.mp hs
    split_ifs at hrp
    · exact h.pruneShardGroups hrp
    · obtain ⟨igs, -, rfl⟩ := Option.map_eq_some_iff.mp hrp
      exact ⟨h.ids, h.keys⟩
  | elsewhere data =>
    cases hs
    exact h.mono (Nat.le_max_left _ _) (fun g hg => ⟨(h.ids g hg).trans (Nat.le_max_left _ _), .inr ⟨g, hg, rfl⟩⟩)
      fun m hm => ⟨m, hm, rfl⟩

end Keyed

/-- Every group has a key in every measurement, and `AlterShardKey` leaves the groups and their keys as they are. -/
theorem shardKey_kept {perm : String × ℕ → ℕ → List ℕ} {d : Data} {rp : RetentionPolicyInfo}
    (hgroups : rp.shardGroups = []) (hmsts : rp.measurements = []) {cs : List KeyCommand}
    {s : Data × RetentionPolicyInfo} (hrun : run (KeyCommand.step perm) (d, rp) cs = some s) :
    (∀ g ∈ s.2.shardGroups, ∀ m ∈ s.2.measurements, (m.getShardKey g.id).isSome) ∧
      ∀ ord mst shardKey s', (KeyCommand.alterShardKey ord mst shardKey).step perm s = some s' →
        s'.2.shardGroups = s.2.shardGroups ∧ ∀ g ∈ s.2.shardGroups,
          s'.2.measurements.map (fun m => (m.mst, m.version, m.getShardKey g.id)) =
            s.2.measurements.map fun m => (m.mst, m.version, m.getShardKey g.id) := by
  have hinit : Keyed (d, rp) := ⟨by simp [hgroups], by simp [hmsts]⟩
  have h : Keyed s := run_preserves (fun _ _ _ h hs => h.step hs) hinit hrun
  refine ⟨h.isSome_getShardKey, fun ord mst shardKey s' hs => ?_⟩
  obtain ⟨r, hr, rfl⟩ := Option.map_eq_some_iff.mp hs
  obtain ⟨f, hf, hcases⟩ := alterShardKey_cases hr
  rw [hf]
  refine ⟨rfl, fun g hg => ?_⟩
  rw [map_map]
  refine map_congr_left fun m _ => ?_
  dsimp only [Function.comp]
  rcases hcases m with heq | ⟨ski, hski, heq⟩
  · rw [heq]
  · rw [heq, getShardKey_addShardKey hg (hski ▸ Nat.lt_succ_of_le (h.ids g hg))]
    rfl

/-- A group, a new key, and the groups with their keys. -/
theorem cpu_shardKey_kept : ∃ s, run (KeyCommand.step ascending)
    (⟨1, 0, 0, 0, 0, 0, []⟩, ⟨1, 0, 3600000000000, 0, 0, 3600000000000, [], [], [], fun _ => none⟩)
    [.createMeasurement id "cpu" ⟨["host"], .hash, 0⟩ 0 false, .createShardGroup id 0 0,
      .alterShardKey id "cpu" (some ⟨["rack"], .hash, 0⟩), .createShardGroup id 7200000000000 0] = some s ∧
    (s.2.shardGroups.map (·.id), s.2.measurements.map (·.shardKeys.length)) = ([1, 2], [2]) ∧
    ∀ g ∈ s.2.shardGroups, ∀ m ∈ s.2.measurements, (m.getShardKey g.id).isSome := by
  refine ((Option.any_eq_true _ _).mp ?_).imp fun s hs =>
    ⟨hs.1, of_decide_eq_true hs.2, (shardKey_kept rfl rfl hs.1).1⟩
  decide +kernel

end GeminiTS.Catalog
