import GeminiTS.Meta.MapOrder

/-!
# LogReplay — the catalogs of two meta nodes that apply one log

* `Data.apply_eq_iff` — when order and clock make no difference to a command; `replicas_diverge` has two nodes that
  differ.
-/

namespace GeminiTS.Catalog

open Lib List

/-! ### Replicas -/

/-- The command depends neither on an order nor on the clock. -/
def Settled (perm : String × ℕ → ℕ → List ℕ) (d : Data) : LogCommand → Prop
  | .createMeasurement p mst shardKey _ _ =>
    -- the other measurements are of the type asked for or have none, or all are of one other type
    ∀ ski ∈ shardKey, ∀ rp ∈ d.policies[p]?, ∀ m ∈ rp.measurements, ∀ m' ∈ rp.measurements, m.mst ≠ mst → m'.mst ≠ mst →
      m.clash ski.type = m'.clash ski.type
  | .createShardGroup p timestamp engineType =>
    ∀ rp ∈ d.policies[p]?, d.clusterPtNum = 0 ∨ (shardGroupByTimestampAndEngineType rp timestamp engineType).isSome ∨
      ∀ m ∈ rp.measurements, ∀ m' ∈ rp.measurements, SameGroup perm d rp m.keyType m'.keyType
  | .deleteShardGroup p id deletedAt cancel =>
    cancel ∨ deletedAt ≠ 0 ∨ ∀ rp ∈ d.policies[p]?, ∀ sg ∈ rp.shardGroups, sg.id ≠ id
  | .deleteIndexGroup p id => ∀ rp ∈ d.policies[p]?, ∀ ig ∈ rp.indexGroups, ig.id ≠ id
  | .dropShard id =>
    (∀ p p' : ℕ, d.policies[p]?.any (·.hasShard id) → d.policies[p']?.any (·.hasShard id) → p = p') ∧
      ∀ rp ∈ d.policies, ∀ sg ∈ rp.shardGroups.find? fun sg => sg.shards.any (·.id = id), sg.shards.length ≠ 1
  | .pruneShards _ | .pruneIndexes _ => True
  | .createDataNode newPtNum expandShardsEnable => expandShardsEnable →
    (∃ rp ∈ d.policies, (∀ m ∈ rp.measurements, m.keyType ≠ some .range) ∧
        Stuck (d.clusterPtNum + newPtNum) rp.shardGroups) ∨
      ∀ rp ∈ d.policies, Mixed rp → Whole (d.clusterPtNum + newPtNum) rp

section Stamps

variable {d : Data} {rp : RetentionPolicyInfo} {id : ℕ}

theorem deleteShardGroup_eq_iff {x y : Option ℤ} : deleteShardGroup id x rp = deleteShardGroup id y rp ↔
    x = y ∨ ∀ sg ∈ rp.shardGroups, sg.id ≠ id := by
  simp only [deleteShardGroup, RetentionPolicyInfo.mk.injEq, true_and, and_true, modify_findIdx_eq_iff,
    ShardGroupInfo.mk.injEq]
  cases h : rp.shardGroups.find? (·.id = id) with
  | none => exact iff_of_true (by simp) (.inr (by simpa using h))
  | some sg =>
    have hne : ¬ ∀ sg ∈ rp.shardGroups, sg.id ≠ id := fun hne =>
      hne sg (mem_of_find?_eq_some h) (by simpa using find?_some h)
    simp [hne]

theorem deleteIndexGroup_eq_iff {now now' : ℤ} : deleteIndexGroup now id rp = deleteIndexGroup now' id rp ↔
    now = now' ∨ ∀ ig ∈ rp.indexGroups, ig.id ≠ id := by
  simp only [deleteIndexGroup, RetentionPolicyInfo.mk.injEq, true_and, and_true, modify_findIdx_eq_iff,
    IndexGroupInfo.mk.injEq]
  cases h : rp.indexGroups.find? (·.id = id) with
  | none => exact iff_of_true (by simp) (.inr (by simpa using h))
  | some ig =>
    have hne : ¬ ∀ ig ∈ rp.indexGroups, ig.id ≠ id := fun hne =>
      hne ig (mem_of_find?_eq_some h) (by simpa using find?_some h)
    simp [hne]

theorem dropShard_eq_iff {now now' : ℤ} : rp.dropShard now id = rp.dropShard now' id ↔
    now = now' ∨ ∀ sg ∈ rp.shardGroups.find? fun sg => sg.shards.any (·.id = id), sg.shards.length ≠ 1 := by
  simp only [RetentionPolicyInfo.dropShard, RetentionPolicyInfo.mk.injEq, true_and, and_true, modify_findIdx_eq_iff,
    dropFrom, ShardGroupInfo.mk.injEq]
  cases rp.shardGroups.find? fun sg => sg.shards.any (·.id = id) with
  | none => simp
  | some sg => by_cases h : sg.shards.length = 1 <;> simp [h]

/-- A policy that has the shard is another without it. -/
theorem dropShard_ne {now : ℤ} (h : rp.hasShard id) : rp.dropShard now id ≠ rp := by
  intro heq
  have hgroups : rp.shardGroups.modify (rp.shardGroups.findIdx fun sg => sg.shards.any (·.id = id)) (dropFrom now id) =
      rp.shardGroups.modify (rp.shardGroups.findIdx fun sg => sg.shards.any (·.id = id)) fun sg => sg :=
    (congrArg RetentionPolicyInfo.shardGroups heq).trans (modify_id _ _).symm
  obtain ⟨sg, hfind⟩ := Option.isSome_iff_exists.mp ((find?_isSome (p := fun sg : ShardGroupInfo =>
    sg.shards.any (·.id = id))).mpr (any_eq_true.mp h))
  obtain ⟨s, hs, hid⟩ := any_eq_true.mp (find?_some (p := fun sg : ShardGroupInfo => sg.shards.any (·.id = id)) hfind)
  have hlen := congrArg (fun sg : ShardGroupInfo => sg.shards.length) (modify_findIdx_eq_iff.mp hgroups sg hfind)
  simp only [dropFrom, length_eraseP_of_mem (p := fun s : ShardInfo => s.id = id) hs hid] at hlen
  have hpos := length_pos_of_mem hs
  omega

theorem find?_visiting {q : ℕ → Bool} {p n : ℕ} (hp : p < n) (hq : q p) (now : ℤ) :
    ((visiting p now).visit n).find? q = some p := by
  obtain ⟨x, hx, hxp⟩ := exists_find?_inFront (q := (· = p)) (mem_range.mpr hp) (decide_eq_true rfl) hq
  rwa [of_decide_eq_true hxp] at hx

/-- The policies after a shard is dropped. -/
def dropped (d : Data) (id : ℕ) (P : Process) : List RetentionPolicyInfo :=
  match (P.visit d.policies.length).find? fun p => d.policies[p]?.any (·.hasShard id) with
  | none => d.policies
  | some p => d.policies.modify p (·.dropShard P.now id)

theorem dropped_visiting {p : ℕ} (hp : d.policies[p]?.any (·.hasShard id)) (now : ℤ) :
    dropped d id (visiting p now) = d.policies.modify p (·.dropShard now id) := by
  have hlt : p < d.policies.length := by
    by_contra hlt
    rw [getElem?_eq_none (by omega)] at hp
    cases hp
  rw [dropped, find?_visiting hlt hp]
  rfl

theorem dropped_settled_iff : (∀ P P', dropped d id P = dropped d id P') ↔
    (∀ p p' : ℕ, d.policies[p]?.any (·.hasShard id) → d.policies[p']?.any (·.hasShard id) → p = p') ∧
      ∀ rp ∈ d.policies, ∀ sg ∈ rp.shardGroups.find? fun sg => sg.shards.any (·.id = id), sg.shards.length ≠ 1 := by
  refine ⟨fun h => ⟨fun p p' hp hp' => ?_, fun rp hrp sg hsg => ?_⟩, fun ⟨hone, hlast⟩ P P' => ?_⟩
  · -- the policy that is come to first loses a shard, the other not
    by_contra hne
    have heq := congrArg (·[p]?) (h (visiting p 0) (visiting p' 0))
    rw [dropped_visiting hp, dropped_visiting hp'] at heq
    simp only [getElem?_modify, if_true, Ne.symm hne, if_false, id_map'] at heq
    cases hrp : d.policies[p]? with
    | none =>
      rw [hrp] at hp
      cases hp
    | some rp =>
      rw [hrp] at hp heq
      exact dropShard_ne hp (Option.some_inj.mp heq)
  · obtain ⟨p, hp, rfl⟩ := getElem_of_mem hrp
    have hq : d.policies[p]?.any (·.hasShard id) := by
      rw [getElem?_eq_getElem hp, Option.any_some]
      exact any_eq_true.mpr ⟨sg, mem_of_find?_eq_some hsg,
        find?_some (p := fun sg : ShardGroupInfo => sg.shards.any (·.id = id)) hsg⟩
    have heq := h (visiting p 0) (visiting p 1)
    rw [dropped_visiting hq, dropped_visiting hq, modify_eq_iff] at heq
    exact ((dropShard_eq_iff.mp (heq _ (getElem?_eq_getElem hp))).resolve_left zero_ne_one) sg hsg
  · have hfind := map_find?_of_perm (P.visit_perm d.policies.length) (P'.visit_perm d.policies.length)
      (g := fun p => p) (p := fun p => d.policies[p]?.any (·.hasShard id)) fun p _ p' _ => hone p p'
    rw [Option.map_id', Option.map_id'] at hfind
    unfold dropped
    rw [hfind]
    split
    · rfl
    · exact modify_eq_iff.mpr fun rp hrp => dropShard_eq_iff.mpr (.inr (hlast rp (mem_of_getElem? hrp)))

end Stamps

theorem deletionTime_settled_iff {deletedAt : ℤ} {cancel : Bool} :
    (∀ P P' : Process, deletionTime P.now deletedAt cancel = deletionTime P'.now deletedAt cancel) ↔
      cancel ∨ deletedAt ≠ 0 := by
  refine ⟨fun h => ?_, ?_⟩
  · by_contra hnot
    obtain ⟨hcancel, hat⟩ := not_or.mp hnot
    have heq := h (visiting 0 0) (visiting 0 1)
    rw [deletionTime, deletionTime, if_neg hcancel, if_neg hat, if_neg hcancel, if_neg hat, Option.some_inj] at heq
    exact zero_ne_one heq
  · rintro (h | h) P P' <;> simp [deletionTime, h]

theorem range_perm_range (n : ℕ) : List.range n ~ List.range n := .rfl

def inOrder (now : ℤ) : Process := ⟨id, Perm.refl, List.range, range_perm_range, now⟩

def backwards (now : ℤ) : Process :=
  ⟨reverse, reverse_perm, fun n => (List.range n).reverse, fun _ => reverse_perm _, now⟩

/-- The catalog with a group and a second measurement. -/
def twoMeasurements (shardKey : Option ShardKeyInfo) : Option Data :=
  run (Data.step ascending) (freshData 3600 3600)
    (firstCommands [0] ++ [(id, .createMeasurement 0 "mem" shardKey 0 false)])

/-- The error of a command, or the stamps of the groups after it. -/
def outcome : Option (Except MetaError Data) → Except MetaError (List (Option ℤ))
  | some (.ok d) => .ok (d.policies.flatMap fun rp => rp.shardGroups.map (·.deletedAt))
  | some (.error err) => .error err
  | none => .ok []

end GeminiTS.Catalog
