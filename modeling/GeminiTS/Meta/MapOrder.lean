import GeminiTS.Meta.Catalog

/-!
# MapOrder — what a command takes from the order of a map

Some commands take "any" measurement of a map, in the order in which the local process ranges over it, and some stamp
the local time (`lib/util/lifted/influx/meta/data.go`, `retentionpolicy.go`).

* `createMeasurement_settled_iff`, `createShardGroup_settled_iff` — when all processes get the same policy;
  `expandGroups_eq` and `stuck_or_whole` are the two directions for an expansion.
-/

namespace GeminiTS.Catalog

open Lib List
open Meta (truncate)

/-! ### The code -/

/-- Commands of the log; `p` is the position of the policy. -/
inductive LogCommand
  | createMeasurement (p : ℕ) (mst : String) (shardKey : Option ShardKeyInfo) (numOfShards : ℤ) (colStore : Bool)
  | createShardGroup (p : ℕ) (timestamp : ℤ) (engineType : ℕ)
  | deleteShardGroup (p id : ℕ) (deletedAt : ℤ) (cancel : Bool)
  | deleteIndexGroup (p id : ℕ)
  | dropShard (id : ℕ)
  | pruneShards (id : ℕ)
  | pruneIndexes (id : ℕ)
  | createDataNode (newPtNum : ℕ) (expandShardsEnable : Bool)

section Clock

variable (now : ℤ) (id : ℕ) (rp : RetentionPolicyInfo)

def deleteIndexGroup : RetentionPolicyInfo :=
  { rp with indexGroups := rp.indexGroups.modify (rp.indexGroups.findIdx (·.id = id)) fun ig =>
      { ig with deletedAt := some now } }

/-- The time a deletion is stamped with. -/
def deletionTime (deletedAt : ℤ) (cancel : Bool) : Option ℤ :=
  if cancel then none else if deletedAt ≠ 0 then some deletedAt else some now

/-- Drop a shard of a group; the last one takes the group with it. -/
def dropFrom (sg : ShardGroupInfo) : ShardGroupInfo :=
  { sg with
    shards := sg.shards.eraseP (·.id = id)
    deletedAt := if sg.shards.length = 1 then some now else sg.deletedAt }

def RetentionPolicyInfo.dropShard : RetentionPolicyInfo :=
  { rp with shardGroups :=
      rp.shardGroups.modify (rp.shardGroups.findIdx fun sg => sg.shards.any (·.id = id)) (dropFrom now id) }

def RetentionPolicyInfo.hasShard : Bool := rp.shardGroups.any fun sg => sg.shards.any (·.id = id)

end Clock

/-- What a process has of its own: the orders in which it ranges over measurements and policies, and its clock. -/
structure Process where
  ord : Order
  ord_perm : ∀ l, ord l ~ l
  visit : ℕ → List ℕ
  visit_perm : ∀ n, visit n ~ range n
  now : ℤ

def Data.apply (perm : String × ℕ → ℕ → List ℕ) (P : Process) (d : Data) : LogCommand → Option (Except MetaError Data)
  | .createMeasurement p mst shardKey numOfShards colStore =>
    d.withPolicy p fun rp => createMeasurement perm P.ord d rp mst shardKey numOfShards colStore
  | .createShardGroup p timestamp engineType =>
    d.withPolicy p fun rp => createShardGroup perm P.ord d rp timestamp engineType
  | .deleteShardGroup p id deletedAt cancel =>
    d.withPolicy p fun rp => some (.ok (d, deleteShardGroup id (deletionTime P.now deletedAt cancel) rp))
  | .deleteIndexGroup p id => d.withPolicy p fun rp => some (.ok (d, deleteIndexGroup P.now id rp))
  | .dropShard id =>
    -- the first policy with the shard
    some (.ok { d with policies :=
      match (P.visit d.policies.length).find? fun p => d.policies[p]?.any (·.hasShard id) with
      | none => d.policies
      | some p => d.policies.modify p (·.dropShard P.now id) })
  | .pruneShards id => (d.policies.mapM (pruneShardGroups id)).map fun rps => .ok { d with policies := rps }
  | .pruneIndexes id => (d.policies.mapM (pruneIndexGroups id)).map fun rps => .ok { d with policies := rps }
  | .createDataNode newPtNum expandShardsEnable => (createDataNode P.ord d newPtNum expandShardsEnable).map .ok

/-! ### Orders -/

/-- The type of the first shard key, which is all that is looked at. -/
def MeasurementInfo.keyType (m : MeasurementInfo) : Option KeyType := m.shardKeys.head?.map (·.type)

/-- What of two lists in different order comes first is the same if nothing tells the candidates apart. -/
theorem map_find?_of_perm {α β : Type*} {l l1 l2 : List α} (h1 : l1 ~ l) (h2 : l2 ~ l) {p : α → Bool} {g : α → β}
    (h : ∀ m ∈ l, ∀ m' ∈ l, p m → p m' → g m = g m') : (l1.find? p).map g = (l2.find? p).map g := by
  cases hf1 : l1.find? p with
  | none =>
    have hf2 : l2.find? p = none :=
      find?_eq_none.mpr fun m hm => find?_eq_none.mp hf1 m (h1.mem_iff.mpr (h2.mem_iff.mp hm))
    rw [hf2]
  | some m =>
    have hm := mem_of_find?_eq_some hf1
    obtain ⟨m', hm'⟩ : ∃ m', l2.find? p = some m' := Option.isSome_iff_exists.mp
      (find?_isSome.mpr ⟨m, h2.mem_iff.mpr (h1.mem_iff.mp hm), find?_some hf1⟩)
    rw [hm']
    exact congrArg some (h m (h1.mem_iff.mp hm) m' (h2.mem_iff.mp (mem_of_find?_eq_some hm')) (find?_some hf1)
      (find?_some hm'))

theorem find?_true {α : Type*} (l : List α) : l.find? (fun _ => true) = l.head? := by cases l <;> rfl

section InFront

variable {α : Type*} {q p : α → Bool} {l : List α} {m : α}

/-- The list with what meets `q` in front. -/
def inFront (q : α → Bool) (l : List α) : List α := l.filter q ++ l.filter (! q ·)

theorem exists_find?_inFront (hm : m ∈ l) (hq : q m) (hp : p m) : ∃ x ∈ (inFront q l).find? p, q x := by
  obtain ⟨x, hx⟩ := Option.isSome_iff_exists.mp (find?_isSome.mpr ⟨m, mem_filter.mpr ⟨hm, hq⟩, hp⟩)
  refine ⟨x, ?_, (mem_filter.mp (mem_of_find?_eq_some hx)).2⟩
  rw [inFront, find?_append, hx, Option.some_or, Option.mem_some_iff]

theorem exists_lastMatch_inFront (hm : m ∈ l) (hq : q m = false) (hp : p m) :
    ∃ x ∈ lastMatch p (inFront q l), q x = false := by
  cases hx : lastMatch p (l.filter (! q ·)) with
  | none => exact absurd hp (lastMatch_eq_none.mp hx m (mem_filter.mpr ⟨hm, by rw [hq]; rfl⟩))
  | some x =>
    refine ⟨x, ?_, by simpa using (mem_filter.mp (mem_of_lastMatch hx)).2⟩
    rw [inFront, lastMatch_append, hx, Option.some_or, Option.mem_some_iff]

end InFront

/-- A process that comes to the measurements that meet `q` first. -/
def front (q : MeasurementInfo → Bool) : Process := ⟨inFront q, filter_append_perm q, List.range, fun _ => .rfl, 0⟩

/-- A process that comes to the policy first. -/
def visiting (p : ℕ) (now : ℤ) : Process :=
  ⟨id, fun _ => .rfl, fun n => inFront (· = p) (List.range n), fun _ => filter_append_perm _ _, now⟩

/-! ### One change of a list -/

section Modify

variable {α : Type*} {l : List α} {f g : α → α}

theorem modify_eq_iff {i : ℕ} : l.modify i f = l.modify i g ↔ ∀ a ∈ l[i]?, f a = g a := by
  refine ⟨fun h a ha => ?_, fun h => ext_getElem? fun j => ?_⟩
  · have hi := congrArg (·[i]?) h
    simpa [getElem?_modify, Option.mem_def.mp ha] using hi
  · rw [getElem?_modify, getElem?_modify]
    split_ifs with hij
    · subst hij
      exact Option.map_congr h
    · rfl

theorem modify_findIdx_eq_iff {p : α → Bool} :
    l.modify (l.findIdx p) f = l.modify (l.findIdx p) g ↔ ∀ a ∈ l.find? p, f a = g a := by
  rw [modify_eq_iff, find?_eq_getElem?_findIdx]

end Modify

/-- The policy that a command leaves is all that two outcomes can differ in, apart from the counters. -/
theorem withPolicy_eq_iff {d : Data} {p : ℕ} {rp : RetentionPolicyInfo} (hp : d.policies[p]? = some rp)
    {f g : RetentionPolicyInfo → Option (Except MetaError (Data × RetentionPolicyInfo))}
    (hf : ∀ d' rp', f rp = some (.ok (d', rp')) → d'.policies = d.policies)
    (hg : ∀ d' rp', g rp = some (.ok (d', rp')) → d'.policies = d.policies) :
    d.withPolicy p f = d.withPolicy p g ↔ f rp = g rp := by
  unfold Data.withPolicy
  rw [hp]
  dsimp only
  refine ⟨fun h => ?_, fun h => by rw [h]⟩
  rcases hfo : f rp with - | err | ⟨d1, rp1⟩ <;> rcases hgo : g rp with - | err' | ⟨d2, rp2⟩ <;> rw [hfo, hgo] at h
  all_goals simp only [Option.map_none, Option.map_some, Option.some_inj, reduceCtorEq, Except.error.injEq,
    Except.ok.injEq] at h ⊢
  · exact h
  · obtain ⟨hlt, -⟩ := List.getElem?_eq_some_iff.mp hp
    have hrp := congrArg (fun d : Data => d.policies[p]?) h
    simp only [getElem?_set_self hlt, Option.some_inj] at hrp
    refine Prod.ext ?_ hrp
    have h1 := hf d1 rp1 hfo
    have h2 := hg d2 rp2 hgo
    cases d1
    cases d2
    simp only [Data.mk.injEq] at h h1 h2 ⊢
    exact ⟨h.1, h.2.1, h.2.2.1, h.2.2.2.1, h.2.2.2.2.1, h.2.2.2.2.2.1, h1.trans h2.symm⟩

theorem withPolicy_settled_iff {d : Data} {p : ℕ}
    {f : Process → RetentionPolicyInfo → Option (Except MetaError (Data × RetentionPolicyInfo))}
    (hf : ∀ P rp d' rp', f P rp = some (.ok (d', rp')) → d'.policies = d.policies) :
    (∀ P P', d.withPolicy p (f P) = d.withPolicy p (f P')) ↔ ∀ rp ∈ d.policies[p]?, ∀ P P', f P rp = f P' rp := by
  cases hp : d.policies[p]? with
  | none => exact iff_of_true (fun _ _ => by simp only [Data.withPolicy, hp]) (by simp)
  | some rp => simp only [withPolicy_eq_iff hp (hf _ rp) (hf _ rp), Option.mem_some_iff, forall_eq']

/-! ### Measurements -/

/-- The type of the measurement, where it is another than the one asked for. -/
def MeasurementInfo.clash (ty : KeyType) (m : MeasurementInfo) : Option KeyType := m.keyType.filter (· ≠ ty)

section CreateMeasurement

variable {perm : String × ℕ → ℕ → List ℕ} {d : Data} {rp : RetentionPolicyInfo} {mst : String} {ski : ShardKeyInfo}
  {numOfShards : ℤ} {colStore : Bool}

theorem validMeasurementShardType_eq (ord : Order) (ty : KeyType) : validMeasurementShardType ord rp ty mst =
    (((ord rp.measurements).find? (·.mst ≠ mst)).map (·.clash ty)).bind fun old =>
      old.map (MetaError.shardingTypeNotEqual · ty) := by
  rw [validMeasurementShardType, Option.bind_map]
  congr 1
  funext m
  rw [Function.comp_apply, MeasurementInfo.clash, MeasurementInfo.keyType]
  cases m.shardKeys.head? with
  | none => rfl
  | some ski' => by_cases h : ski'.type = ty <;> simp [h, Option.filter]

/-- The sharding type is all that the order decides. -/
theorem createMeasurement_eq_iff (ord ord' : Order) :
    createMeasurement perm ord d rp mst (some ski) numOfShards colStore =
        createMeasurement perm ord' d rp mst (some ski) numOfShards colStore ↔
      validMeasurementShardType ord rp ski.type mst = validMeasurementShardType ord' rp ski.type mst := by
  -- no later error is about sharding types
  have hrest : ∀ ord ord' : Order, ∀ err, validMeasurementShardType ord rp ski.type mst = some err →
      validMeasurementShardType ord' rp ski.type mst = none →
      createMeasurement perm ord d rp mst (some ski) numOfShards colStore ≠
        createMeasurement perm ord' d rp mst (some ski) numOfShards colStore := by
    intro ord ord' err herr hnone h
    obtain ⟨old, hold⟩ : ∃ old, err = .shardingTypeNotEqual old ski.type := by
      rw [validMeasurementShardType_eq] at herr
      obtain ⟨_, -, h⟩ := Option.bind_eq_some_iff.mp herr
      obtain ⟨old, -, h⟩ := Option.map_eq_some_iff.mp h
      exact ⟨old, h.symm⟩
    simp only [createMeasurement, Option.bind_some, herr, hnone, hold] at h
    split_ifs at h
    · cases h
    split at h
    · obtain ⟨_, -, h⟩ := Option.map_eq_some_iff.mp h.symm
      cases h
    · split_ifs at h <;> cases h
  refine ⟨fun h => ?_, fun h => by simp only [createMeasurement, Option.bind_some, h]⟩
  cases hv : validMeasurementShardType ord rp ski.type mst with
  | none =>
    cases hv' : validMeasurementShardType ord' rp ski.type mst with
    | none => rfl
    | some err => exact absurd h.symm (hrest ord' ord err hv' hv)
  | some err =>
    cases hv' : validMeasurementShardType ord' rp ski.type mst with
    | none => exact absurd h (hrest ord ord' err hv hv')
    | some err' =>
      simpa only [createMeasurement, Option.bind_some, hv, hv', Option.some_inj, Except.error.injEq] using h

theorem policies_createMeasurement {ord : Order} {shardKey : Option ShardKeyInfo} {d' : Data}
    {rp' : RetentionPolicyInfo}
    (h : createMeasurement perm ord d rp mst shardKey numOfShards colStore = some (.ok (d', rp'))) :
    d'.policies = d.policies := by
  unfold createMeasurement at h
  split at h
  · cases h
  split_ifs at h
  · cases h
  split at h
  · obtain ⟨_, -, h⟩ := Option.map_eq_some_iff.mp h
    cases h
    rfl
  · split_ifs at h <;> cases h
    rfl

theorem createMeasurement_settled_iff : (∀ P P' : Process,
      createMeasurement perm P.ord d rp mst (some ski) numOfShards colStore =
        createMeasurement perm P'.ord d rp mst (some ski) numOfShards colStore) ↔
    ∀ m ∈ rp.measurements, ∀ m' ∈ rp.measurements, m.mst ≠ mst → m'.mst ≠ mst →
      m.clash ski.type = m'.clash ski.type := by
  simp only [createMeasurement_eq_iff]
  refine ⟨fun h m hm m' hm' hne hne' => ?_, fun h P P' => ?_⟩
  · -- each of the two is met first by a process
    have hfirst : ∀ m ∈ rp.measurements, m.mst ≠ mst →
        validMeasurementShardType (front fun x => x.clash ski.type = m.clash ski.type).ord rp ski.type mst =
          (m.clash ski.type).map (MetaError.shardingTypeNotEqual · ski.type) := by
      intro m hm hne
      obtain ⟨x, hx, hclash⟩ := exists_find?_inFront (q := fun x => x.clash ski.type = m.clash ski.type)
        (p := fun x => x.mst ≠ mst) hm (decide_eq_true rfl) (decide_eq_true hne)
      rw [validMeasurementShardType_eq]
      erw [Option.mem_def.mp hx]
      rw [Option.map_some, Option.bind_some, of_decide_eq_true hclash]
    have heq := h (front fun x => x.clash ski.type = m.clash ski.type)
      (front fun x => x.clash ski.type = m'.clash ski.type)
    rw [hfirst m hm hne, hfirst m' hm' hne'] at heq
    exact Option.map_injective (fun _ _ h => (MetaError.shardingTypeNotEqual.inj h).1) heq
  · rw [validMeasurementShardType_eq, validMeasurementShardType_eq,
      map_find?_of_perm (P.ord_perm _) (P'.ord_perm _) fun m hm m' hm' hp hp' =>
        h m hm m' hm' (of_decide_eq_true hp) (of_decide_eq_true hp')]

end CreateMeasurement

/-! ### New shard groups -/

section NewGroup

variable (perm : String × ℕ → ℕ → List ℕ) (d : Data) (rp : RetentionPolicyInfo)

def lastCount : ℕ := (rp.shardGroups.getLast?.map (·.shards.length)).getD 1

/-- No group is made from a measurement of the type: it has no shard key, or shards are to be chosen and a measurement
asks for more than there are. -/
def Panics (ty : Option KeyType) : Prop :=
  ty = none ∨ ty = some .hash ∧ ∃ m ∈ rp.measurements, ¬ (0 ≤ m.initNumOfShards ∧ m.initNumOfShards ≤ d.clusterPtNum)

/-- The measurements have the shards already that are chosen for them in the next group. -/
def Chosen : Prop :=
  ∀ m ∈ rp.measurements, m.initNumOfShards = 0 ∨ m.shardIdexes (d.maxShardGroupID + 1) =
    some (((perm (m.mst, m.version) d.clusterPtNum).take m.initNumOfShards.toNat).insertionSort (· ≤ ·))

/-- Measurements of the two types make the same group. -/
def SameGroup (ty ty' : Option KeyType) : Prop :=
  (Panics d rp ty ↔ Panics d rp ty') ∧ (¬ Panics d rp ty →
    ((ty = some .range ↔ ty' = some .range) ∨ lastCount rp = d.clusterPtNum) ∧
      ((ty = some .hash ↔ ty' = some .hash) ∨ Chosen perm d rp))

/-- What a new group takes from the type: its number of shards, and whether they are chosen for measurements. -/
def fromType (sg : ShardGroupInfo) (make : ℕ → List MeasurementInfo → Data × RetentionPolicyInfo) (ty : KeyType) :
    Option (Except MetaError (Data × RetentionPolicyInfo)) :=
  (if ty = .hash then rp.measurements.mapM (MeasurementInfo.mapGroup perm sg) else some rp.measurements).map fun msts =>
    .ok (make (if ty = .range then lastCount rp else d.clusterPtNum) msts)

variable {perm d rp}

section FromType

variable {sg : ShardGroupInfo} {make : ℕ → List MeasurementInfo → Data × RetentionPolicyInfo}

theorem mapGroup_eq_none_iff {m : MeasurementInfo} :
    m.mapGroup perm sg = none ↔ ¬ (0 ≤ m.initNumOfShards ∧ m.initNumOfShards ≤ sg.shards.length) := by
  unfold MeasurementInfo.mapGroup mapShards
  split_ifs with h0 hin
  · simp [h0]
  · simp [hin]
  · simp [hin]

theorem mapGroup_eq_self_iff {m : MeasurementInfo} (hm : m.mapGroup perm sg ≠ none) : m.mapGroup perm sg = some m ↔
    m.initNumOfShards = 0 ∨ m.shardIdexes sg.id = some (((perm (m.mst, m.version) sg.shards.length).take
      m.initNumOfShards.toNat).insertionSort (· ≤ ·)) := by
  have hin := not_not.mp (mapGroup_eq_none_iff.not.mp hm)
  unfold MeasurementInfo.mapGroup mapShards
  split_ifs with h0
  · simp [h0]
  · rw [Option.map_some, Option.some_inj]
    refine ⟨fun h => .inr ?_, fun h => ?_⟩
    · have hidx := congrArg (fun m : MeasurementInfo => m.shardIdexes sg.id) h
      simpa using hidx.symm
    · have hidx := h.resolve_left h0
      have hfun : (fun g => if g = sg.id then some (((perm (m.mst, m.version) sg.shards.length).take
          m.initNumOfShards.toNat).insertionSort (· ≤ ·)) else m.shardIdexes g) = m.shardIdexes := by
        funext g
        split_ifs with hg
        · rw [hg, hidx]
        · rfl
      rw [hfun]

variable (hid : sg.id = d.maxShardGroupID + 1) (hlen : sg.shards.length = d.clusterPtNum)

include hlen in
theorem bind_fromType_eq_none_iff (ty : Option KeyType) :
    (ty.bind fun ty => fromType perm d rp sg make ty) = none ↔ Panics d rp ty := by
  cases ty with
  | none => exact iff_of_true rfl (.inl rfl)
  | some ty =>
    rw [Option.bind_some, fromType, Option.map_eq_none_iff, Panics]
    split_ifs with h
    · simp only [mapM_eq_none, mapGroup_eq_none_iff, hlen, h, false_or, true_and]
    · simp [h]

include hid hlen in
theorem mapM_mapGroup_eq_self_iff {msts : List MeasurementInfo}
    (h : rp.measurements.mapM (MeasurementInfo.mapGroup perm sg) = some msts) :
    msts = rp.measurements ↔ Chosen perm d rp := by
  rw [← Option.some_inj, ← h, mapM_eq_self_iff, Chosen, ← hid, ← hlen]
  refine forall₂_congr fun m hm => mapGroup_eq_self_iff fun hnone => ?_
  rw [mapM_eq_none.mpr ⟨m, hm, hnone⟩] at h
  cases h

variable (hmake : ∀ n n' l l', make n l = make n' l' → n = n' ∧ l = l')

include hid hlen hmake

theorem bind_fromType_eq_iff (ty ty' : Option KeyType) : (ty.bind fun ty => fromType perm d rp sg make ty) =
    (ty'.bind fun ty => fromType perm d rp sg make ty) ↔ SameGroup perm d rp ty ty' := by
  have hnone : ∀ ty : Option KeyType, (ty.bind fun ty => fromType perm d rp sg make ty) = none ↔ Panics d rp ty :=
    bind_fromType_eq_none_iff hlen
  cases ho : ty.bind fun ty => fromType perm d rp sg make ty with
  | none =>
    have hp := (hnone ty).mp ho
    rw [eq_comm, hnone ty', SameGroup]
    exact ⟨fun hp' => ⟨iff_of_true hp hp', fun h => absurd hp h⟩, fun h => h.1.mp hp⟩
  | some o =>
    have hp : ¬ Panics d rp ty := fun hp => by rw [(hnone ty).mpr hp] at ho; cases ho
    cases ho' : ty'.bind fun ty => fromType perm d rp sg make ty with
    | none => exact iff_of_false (by rintro ⟨⟩) fun h => hp (h.1.mpr ((hnone ty').mp ho'))
    | some o' =>
      have hp' : ¬ Panics d rp ty' := fun hp => by rw [(hnone ty').mpr hp] at ho'; cases ho'
      obtain ⟨k, rfl, ho⟩ := Option.bind_eq_some_iff.mp ho
      obtain ⟨k', rfl, ho'⟩ := Option.bind_eq_some_iff.mp ho'
      obtain ⟨msts, hmsts, rfl⟩ := Option.map_eq_some_iff.mp ho
      obtain ⟨msts', hmsts', rfl⟩ := Option.map_eq_some_iff.mp ho'
      have hself : ∀ l, rp.measurements.mapM (MeasurementInfo.mapGroup perm sg) = some l →
          (l = rp.measurements ↔ Chosen perm d rp) := fun l => mapM_mapGroup_eq_self_iff hid hlen
      -- the counts are the same, and the measurements are
      have hcount : (if k = .range then lastCount rp else d.clusterPtNum) =
          (if k' = .range then lastCount rp else d.clusterPtNum) ↔
          (k = .range ↔ k' = .range) ∨ lastCount rp = d.clusterPtNum := by
        by_cases h : k = .range <;> by_cases h' : k' = .range <;> simp [h, h', eq_comm]
      have hchosen : msts = msts' ↔ (k = .hash ↔ k' = .hash) ∨ Chosen perm d rp := by
        by_cases h : k = .hash <;> by_cases h' : k' = .hash
        · rw [if_pos h] at hmsts
          rw [if_pos h', hmsts] at hmsts'
          exact iff_of_true (Option.some_inj.mp hmsts') (.inl (iff_of_true h h'))
        · rw [if_pos h] at hmsts
          rw [if_neg h', Option.some_inj] at hmsts'
          rw [← hmsts', hself msts hmsts]
          simp [h, h']
        · rw [if_neg h, Option.some_inj] at hmsts
          rw [if_pos h'] at hmsts'
          rw [← hmsts, eq_comm, hself msts' hmsts']
          simp [h, h']
        · rw [if_neg h, Option.some_inj] at hmsts
          rw [if_neg h', Option.some_inj] at hmsts'
          exact iff_of_true (hmsts.symm.trans hmsts') (.inl (iff_of_false h h'))
      rw [Option.some_inj, Except.ok.injEq, SameGroup]
      simp only [Option.some_inj, hp, hp', not_false_eq_true, forall_const, true_and, ← hcount, ← hchosen]
      exact ⟨hmake _ _ _ _, fun ⟨hn, hl⟩ => by rw [hn, hl]⟩

end FromType

/-- **What a new group is made of**: apart from the type of one measurement all is the same for every order. -/
theorem exists_createShardGroup (perm : String × ℕ → ℕ → List ℕ) {timestamp : ℤ} {engineType : ℕ}
    (hpt : d.clusterPtNum ≠ 0) (hsg : (shardGroupByTimestampAndEngineType rp timestamp engineType).isSome = false) :
    ∃ (sg : ShardGroupInfo) (make : ℕ → List MeasurementInfo → Data × RetentionPolicyInfo),
      sg.id = d.maxShardGroupID + 1 ∧ sg.shards.length = d.clusterPtNum ∧
      (∀ n n' l l', make n l = make n' l' → n = n' ∧ l = l') ∧
      ∀ (ord : Order) (m : MeasurementInfo), (ord rp.measurements).head? = some m →
        createShardGroup perm ord d rp timestamp engineType =
          m.keyType.bind fun ty => fromType perm d rp sg make ty := by
  rcases hi : createIndexGroupIfNeeded d rp timestamp engineType with ⟨igi, d1, rp1⟩
  obtain ⟨hlen, hd, hrp⟩ := createIndexGroupIfNeeded_frame hi
  have hpt1 : d1.clusterPtNum = d.clusterPtNum := by rw [hd]
  have hsg1 : d1.maxShardGroupID = d.maxShardGroupID := by rw [hd]
  have hms : rp1.measurements = rp.measurements := by rw [hrp]
  have hlast : ∀ m, shardCount d1 rp1 m = if m.shardKeys.head?.any (·.type = .range) then lastCount rp
      else d.clusterPtNum := fun m => by rw [shardCount, hpt1, hrp, lastCount]
  let start := truncate timestamp rp1.shardGroupDuration
  let sg : ℕ → ShardGroupInfo := fun n => ⟨d1.maxShardGroupID + 1, start, groupEnd start rp1.shardGroupDuration,
    newShards d1 igi n, none, engineType⟩
  refine ⟨sg d.clusterPtNum, fun n msts =>
    ({ d1 with maxShardGroupID := d1.maxShardGroupID + 1, maxShardID := d1.maxShardID + n },
      { rp1 with
        measurements := msts
        shardGroups := stableSort (fun g => toLex (g.endTime, g.startTime)) (rp1.shardGroups ++ [sg n]) }),
    congrArg (· + 1) hsg1, (length_map _).trans length_range, fun n n' l l' h => ?_, fun ord m hm => ?_⟩
  · have hn := congrArg (fun x : Data × RetentionPolicyInfo => x.1.maxShardID) h
    have hl := congrArg (fun x : Data × RetentionPolicyInfo => x.2.measurements) h
    exact ⟨Nat.add_left_cancel hn, hl⟩
  · unfold createShardGroup
    rw [if_neg hpt, if_neg (by rw [hsg]; exact Bool.false_ne_true), hm, hi]
    dsimp only
    rw [if_neg (by omega), MeasurementInfo.keyType]
    cases hk : m.shardKeys.head? with
    | none => rfl
    | some ski =>
      rw [hlast, hk, Option.bind_some, Option.map_some, Option.bind_some, fromType, hms, Option.any_some]
      by_cases hhash : ski.type = .hash
      · have hrange : ski.type ≠ .range := by rw [hhash]; exact KeyType.noConfusion
        simp only [hhash, if_true, reduceCtorEq, decide_false, Bool.false_eq_true, if_false, sg, start]
      · simp only [hhash, if_false, decide_eq_true_eq, sg, start]

theorem policies_createShardGroup {ord : Order} {timestamp : ℤ} {engineType : ℕ} {d' : Data} {rp' : RetentionPolicyInfo}
    (h : createShardGroup perm ord d rp timestamp engineType = some (.ok (d', rp'))) : d'.policies = d.policies := by
  obtain ⟨-, ⟨rfl, -⟩ | ⟨_, _, d1, _, _, hi, rfl, -⟩⟩ := createShardGroup_ok h
  · rfl
  · have hpol : d1.policies = d.policies := by rw [(createIndexGroupIfNeeded_frame hi).2.1]
    exact hpol

theorem createShardGroup_settled_iff {timestamp : ℤ} {engineType : ℕ} : (∀ P P' : Process,
      createShardGroup perm P.ord d rp timestamp engineType = createShardGroup perm P'.ord d rp timestamp engineType) ↔
    d.clusterPtNum = 0 ∨ (shardGroupByTimestampAndEngineType rp timestamp engineType).isSome ∨
      ∀ m ∈ rp.measurements, ∀ m' ∈ rp.measurements, SameGroup perm d rp m.keyType m'.keyType := by
  by_cases hpt : d.clusterPtNum = 0
  · exact iff_of_true (fun _ _ => by simp only [createShardGroup, hpt, if_true]) (.inl hpt)
  cases hsg : (shardGroupByTimestampAndEngineType rp timestamp engineType).isSome with
  | true =>
    exact iff_of_true (fun _ _ => by simp only [createShardGroup, hpt, hsg, if_true, if_false]) (.inr (.inl rfl))
  | false =>
    obtain ⟨sg, make, hid, hlen, hmake, hcreate⟩ := exists_createShardGroup perm hpt hsg
    have hsame : ∀ ty ty' : Option KeyType, (ty.bind fun ty => fromType perm d rp sg make ty) =
        (ty'.bind fun ty => fromType perm d rp sg make ty) ↔ SameGroup perm d rp ty ty' :=
      bind_fromType_eq_iff hid hlen hmake
    simp only [hpt, Bool.false_eq_true, false_or]
    refine ⟨fun h m hm m' hm' => ?_, fun h P P' => ?_⟩
    · -- a process with a measurement of the type in front
      have hfirst : ∀ m ∈ rp.measurements,
          createShardGroup perm (front fun x => x.keyType = m.keyType).ord d rp timestamp engineType =
            m.keyType.bind fun ty => fromType perm d rp sg make ty := by
        intro m hm
        obtain ⟨x, hx, hkey⟩ := exists_find?_inFront (q := fun x => x.keyType = m.keyType) (p := fun _ => true) hm
          (decide_eq_true rfl) rfl
        rw [find?_true] at hx
        rw [hcreate (front fun x => x.keyType = m.keyType).ord x hx, of_decide_eq_true hkey]
      rw [← hsame, ← hfirst m hm, ← hfirst m' hm']
      exact h _ _
    · cases hm : (P.ord rp.measurements).head? with
      | none =>
        have hnil : rp.measurements = [] := by
          have hnil := (P.ord_perm rp.measurements).symm
          rwa [head?_eq_none_iff.mp hm, perm_nil] at hnil
        have hhead : ∀ P : Process, P.ord rp.measurements = [] := fun P => by
          rw [hnil]
          exact perm_nil.mp (P.ord_perm [])
        simp only [createShardGroup, hhead]
      | some m =>
        cases hm' : (P'.ord rp.measurements).head? with
        | none =>
          have hnil := (P'.ord_perm rp.measurements).symm
          rw [head?_eq_none_iff.mp hm', perm_nil] at hnil
          have hmem := (P.ord_perm rp.measurements).mem_iff.mp (mem_of_mem_head? hm)
          rw [hnil] at hmem
          exact absurd hmem not_mem_nil
        | some m' =>
          rw [hcreate _ m hm, hcreate _ m' hm', hsame]
          exact h m ((P.ord_perm _).mem_iff.mp (mem_of_mem_head? hm)) m'
            ((P'.ord_perm _).mem_iff.mp (mem_of_mem_head? hm'))

end NewGroup

/-! ### Expansion -/

/-- Every group has a member for each of `n` partitions. -/
def Whole (n : ℕ) (rp : RetentionPolicyInfo) : Prop :=
  (∀ ig ∈ rp.indexGroups, n ≤ ig.indexes.length) ∧ ∀ sg ∈ rp.shardGroups, n ≤ sg.shards.length

/-- A group without shards has no shard to take the tier from. -/
def Stuck (n : ℕ) (sgs : List ShardGroupInfo) : Prop := 0 < n ∧ ∃ sg ∈ sgs, sg.shards = []

/-- Measurements that are sharded by range and ones that are not. -/
def Mixed (rp : RetentionPolicyInfo) : Prop :=
  (∃ m ∈ rp.measurements, m.keyType = some .range) ∧ ∃ m ∈ rp.measurements, m.keyType ≠ none ∧ m.keyType ≠ some .range

section Expand

variable {d : Data} {rp : RetentionPolicyInfo}

theorem wide_expandIndexGroups (n : ℕ) (igs : List IndexGroupInfo) (max : ℕ) :
    ∀ ig ∈ (expandIndexGroups n max igs).2, n ≤ ig.indexes.length := by
  induction igs generalizing max with
  | nil => exact fun ig hig => absurd hig not_mem_nil
  | cons ig igs ih =>
    intro x hx
    rcases mem_cons.mp hx with rfl | hx
    · rw [expandIndexGroup, length_append, newIndexes, length_map, length_range']
      omega
    · exact ih _ x hx

theorem expandIndexGroups_of_wide {n : ℕ} {igs : List IndexGroupInfo} (h : ∀ ig ∈ igs, n ≤ ig.indexes.length)
    (max : ℕ) : expandIndexGroups n max igs = (max, igs) := by
  induction igs with
  | nil => rfl
  | cons ig igs ih =>
    have hig := Nat.sub_eq_zero_of_le (h ig mem_cons_self)
    have hnew : ig.indexes ++ newIndexes max 0 = ig.indexes := append_nil _
    rw [expandIndexGroups, hig, Nat.add_zero, ih fun ig hig => h ig (mem_cons_of_mem _ hig), expandIndexGroup, hig,
      hnew]

theorem createIndexGroupIfNeeded_wide {timestamp : ℤ} {engineType : ℕ} {igi : IndexGroupInfo} {d' : Data}
    {rp' : RetentionPolicyInfo} (h : createIndexGroupIfNeeded d rp timestamp engineType = (igi, d', rp'))
    (hw : ∀ ig ∈ rp.indexGroups, d.clusterPtNum ≤ ig.indexes.length) :
    ∀ ig ∈ rp'.indexGroups, d.clusterPtNum ≤ ig.indexes.length := by
  have hlen := (createIndexGroupIfNeeded_frame h).1
  rcases createIndexGroupIfNeeded_cases d rp timestamp engineType with ⟨_, -, -, -, -, heq⟩ | heq
  · cases heq.symm.trans h
    exact hw
  · cases heq.symm.trans h
    intro ig hig
    rcases mem_append.mp ((stableSort_perm _ _).mem_iff.mp hig) with hig | hig
    · exact hw ig hig
    · rw [eq_of_mem_singleton hig]
      exact hlen

/-- A group that has a shard gets its shards, and the index groups stay wide. -/
theorem exists_expandShardGroup (k : ℕ) (d : Data) (rp : RetentionPolicyInfo) (sg : ShardGroupInfo)
    (hk : sg.shards.length + k ≤ d.clusterPtNum)
    (hsg : k = 0 ∨ sg.shards ≠ []) (hw : ∀ ig ∈ rp.indexGroups, d.clusterPtNum ≤ ig.indexes.length) :
    ∃ d' rp' sg', expandShardGroup k d rp sg = some (d', rp', sg') ∧ d'.clusterPtNum = d.clusterPtNum ∧
      sg'.shards.length = sg.shards.length + k ∧ ∀ ig ∈ rp'.indexGroups, d.clusterPtNum ≤ ig.indexes.length := by
  induction k generalizing d rp sg with
  | zero => exact ⟨d, rp, sg, rfl, rfl, rfl, hw⟩
  | succ k ih =>
    have hne := hsg.resolve_left (Nat.succ_ne_zero k)
    rw [expandShardGroup, if_neg hne]
    rcases hi : createIndexGroupIfNeeded d rp sg.startTime sg.engineType with ⟨igi, d1, rp1⟩
    obtain ⟨hlen, hd, -⟩ := createIndexGroupIfNeeded_frame hi
    have hpt : d1.clusterPtNum = d.clusterPtNum := by rw [hd]
    have hlt : sg.shards.length < igi.indexes.length := by omega
    dsimp only
    rw [getElem?_eq_getElem hlt, Option.bind_some]
    obtain ⟨d', rp', sg', heq, hpt', hlen', hw'⟩ := ih { d1 with maxShardID := d1.maxShardID + 1 } rp1
      { sg with shards := sg.shards ++ [⟨d1.maxShardID + 1, igi.indexes[sg.shards.length].id, false⟩] }
      (by simp only [length_append, length_singleton]; omega) (.inr (by simp))
      (by rw [hpt]; exact createIndexGroupIfNeeded_wide hi hw)
    refine ⟨d', rp', sg', heq, hpt'.trans hpt, ?_, by rwa [hpt] at hw'⟩
    rw [hlen', length_append, length_singleton]
    omega

theorem expandShardGroup_stuck {k : ℕ} {sg : ShardGroupInfo} (hk : 0 < k) (hsg : sg.shards = []) :
    expandShardGroup k d rp sg = none := by
  obtain ⟨k, rfl⟩ := Nat.exists_eq_succ_of_ne_zero hk.ne'
  rw [expandShardGroup, if_pos hsg]

/-- Groups are expanded unless one has no shards. -/
theorem expandShardGroups_spec (sgs : List ShardGroupInfo) (d : Data) (rp : RetentionPolicyInfo)
    (hw : ∀ ig ∈ rp.indexGroups, d.clusterPtNum ≤ ig.indexes.length) :
    Stuck d.clusterPtNum sgs ∧ expandShardGroups sgs d rp = none ∨
    ¬ Stuck d.clusterPtNum sgs ∧ ∃ d' rp' sgs', expandShardGroups sgs d rp = some (d', rp', sgs') ∧
      d'.clusterPtNum = d.clusterPtNum ∧ (∀ sg ∈ sgs', d.clusterPtNum ≤ sg.shards.length) ∧
      ∀ ig ∈ rp'.indexGroups, d.clusterPtNum ≤ ig.indexes.length := by
  induction sgs generalizing d rp with
  | nil => exact .inr ⟨by simp [Stuck], d, rp, [], rfl, rfl, by simp, hw⟩
  | cons sg sgs ih =>
    by_cases hsg : 0 < d.clusterPtNum ∧ sg.shards = []
    · have hnone : expandShardGroup (d.clusterPtNum - sg.shards.length) d rp sg = none :=
        expandShardGroup_stuck (by rw [hsg.2]; exact hsg.1) hsg.2
      exact .inl ⟨⟨hsg.1, sg, mem_cons_self, hsg.2⟩, by rw [expandShardGroups, hnone, Option.bind_none]⟩
    have hex : ∃ d' rp' sg', expandShardGroup (d.clusterPtNum - sg.shards.length) d rp sg = some (d', rp', sg') ∧
        d'.clusterPtNum = d.clusterPtNum ∧ d.clusterPtNum ≤ sg'.shards.length ∧
        ∀ ig ∈ rp'.indexGroups, d.clusterPtNum ≤ ig.indexes.length := by
      by_cases hle : d.clusterPtNum ≤ sg.shards.length
      · rw [Nat.sub_eq_zero_of_le hle]
        exact ⟨d, rp, sg, rfl, rfl, hle, hw⟩
      · obtain ⟨d', rp', sg', heq, hpt, hlen, hw'⟩ := exists_expandShardGroup
          (d.clusterPtNum - sg.shards.length) d rp sg (by omega) (.inr fun h => hsg ⟨by omega, h⟩) hw
        exact ⟨d', rp', sg', heq, hpt, by omega, hw'⟩
    obtain ⟨d1, rp1, sg', heq, hpt, hlen, hw1⟩ := hex
    have hiff : Stuck d.clusterPtNum (sg :: sgs) ↔ Stuck d1.clusterPtNum sgs := by
      rw [Stuck, Stuck, hpt, exists_mem_cons_iff]
      exact ⟨fun h => ⟨h.1, h.2.resolve_left fun h' => hsg ⟨h.1, h'⟩⟩, fun h => ⟨h.1, .inr h.2⟩⟩
    rw [expandShardGroups, heq, Option.bind_some, hiff]
    dsimp only
    rcases ih d1 rp1 (by rwa [hpt]) with ⟨hstuck, hnone⟩ | ⟨hfree, d', rp', sgs', hsome, hpt', hlens, hw'⟩
    · exact .inl ⟨hstuck, by rw [hnone]; rfl⟩
    · rw [hpt] at hlens hw'
      refine .inr ⟨hfree, d', rp', sg' :: sgs', by rw [hsome]; rfl, hpt'.trans hpt, fun x hx => ?_, hw'⟩
      rcases mem_cons.mp hx with rfl | hx
      · exact hlen
      · exact hlens x hx

theorem expandShardGroups_of_wide {sgs : List ShardGroupInfo} (h : ∀ sg ∈ sgs, d.clusterPtNum ≤ sg.shards.length) :
    expandShardGroups sgs d rp = some (d, rp, sgs) := by
  induction sgs with
  | nil => rfl
  | cons sg sgs ih =>
    rw [expandShardGroups, Nat.sub_eq_zero_of_le (h sg mem_cons_self), expandShardGroup, Option.bind_some]
    dsimp only
    rw [ih fun sg hsg => h sg (mem_cons_of_mem _ hsg), Option.map_some]

variable {ord : Order}

theorem expandPolicy_of_whole (h : Whole d.clusterPtNum rp) : expandPolicy ord d rp = some (d, rp) := by
  unfold expandPolicy
  split_ifs
  · rfl
  · rw [expandIndexGroups_of_wide h.1]
    dsimp only
    rw [expandShardGroups_of_wide h.2]
    rfl

/-- A policy is left alone, or has all its shards, or stops the process. -/
theorem expandPolicy_spec (hr : shardingType ord rp ≠ some .range) :
    Stuck d.clusterPtNum rp.shardGroups ∧ expandPolicy ord d rp = none ∨
    ¬ Stuck d.clusterPtNum rp.shardGroups ∧ ∃ d' rp', expandPolicy ord d rp = some (d', rp') ∧
      d'.clusterPtNum = d.clusterPtNum ∧ Whole d.clusterPtNum rp' := by
  rw [expandPolicy, if_neg hr]
  rcases hi : expandIndexGroups d.clusterPtNum d.maxIndexID rp.indexGroups with ⟨max, igs⟩
  have hw := wide_expandIndexGroups d.clusterPtNum rp.indexGroups d.maxIndexID
  rw [hi] at hw
  dsimp only
  rcases expandShardGroups_spec rp.shardGroups { d with maxIndexID := max } { rp with indexGroups := igs } hw with
    ⟨hstuck, hnone⟩ | ⟨hfree, d', rp', sgs', hsome, hpt, hlens, hw'⟩
  · exact .inl ⟨hstuck, by rw [hnone]; rfl⟩
  · exact .inr ⟨hfree, d', { rp' with shardGroups := sgs' }, by rw [hsome]; rfl, hpt, hw', hlens⟩

/-- The policies sharded by range are left alone, all others get their shards, unless one of them is stuck. -/
theorem expandGroups_spec {rps : List RetentionPolicyInfo} :
    (∃ rp ∈ rps, shardingType ord rp ≠ some .range ∧ Stuck d.clusterPtNum rp.shardGroups) ∧
      expandGroups ord rps d = none ∨
    (¬ ∃ rp ∈ rps, shardingType ord rp ≠ some .range ∧ Stuck d.clusterPtNum rp.shardGroups) ∧ ∃ d' rps',
      expandGroups ord rps d = some (d', rps') ∧
      Forall₂ (fun rp rp' => (shardingType ord rp = some .range → rp' = rp) ∧
        (shardingType ord rp ≠ some .range → Whole d.clusterPtNum rp')) rps rps' := by
  induction rps generalizing d with
  | nil => exact .inr ⟨by simp, d, [], rfl, .nil⟩
  | cons rp rps ih =>
    rw [expandGroups]
    by_cases hstuck : shardingType ord rp ≠ some .range ∧ Stuck d.clusterPtNum rp.shardGroups
    · obtain ⟨-, hnone⟩ := (expandPolicy_spec hstuck.1).resolve_right fun h => h.1 hstuck.2
      exact .inl ⟨⟨rp, mem_cons_self, hstuck⟩, by rw [hnone]; rfl⟩
    have hex : ∃ d1 rp1, expandPolicy ord d rp = some (d1, rp1) ∧ d1.clusterPtNum = d.clusterPtNum ∧
        (shardingType ord rp = some .range → rp1 = rp) ∧
        (shardingType ord rp ≠ some .range → Whole d.clusterPtNum rp1) := by
      by_cases hr : shardingType ord rp = some .range
      · exact ⟨d, rp, by rw [expandPolicy, if_pos hr], rfl, fun _ => rfl, absurd hr⟩
      · obtain ⟨-, d1, rp1, hsome, hpt, hw⟩ := (expandPolicy_spec hr).resolve_left fun h => hstuck ⟨hr, h.1⟩
        exact ⟨d1, rp1, hsome, hpt, fun h => absurd h hr, fun _ => hw⟩
    obtain ⟨d1, rp1, heq, hpt, hrp1⟩ := hex
    rw [heq, Option.bind_some, exists_mem_cons_iff, or_iff_right hstuck]
    dsimp only
    have ih := ih (d := d1)
    rw [hpt] at ih
    rcases ih with ⟨hs, hnone⟩ | ⟨hfree, d', rps', hsome, hall⟩
    · exact .inl ⟨hs, by rw [hnone]; rfl⟩
    · exact .inr ⟨hfree, d', rp1 :: rps', by rw [hsome]; rfl, .cons hrp1 hall⟩

theorem shardingType_eq_some_iff {ty : KeyType} : shardingType ord rp = some ty ↔
    ∃ m ∈ lastMatch (fun m => ! m.shardKeys.isEmpty) (ord rp.measurements), m.keyType = some ty :=
  Option.bind_eq_some_iff

theorem keyType_isSome_iff {m : MeasurementInfo} : (! m.shardKeys.isEmpty) = true ↔ m.keyType ≠ none := by
  unfold MeasurementInfo.keyType
  cases m.shardKeys <;> simp

theorem exists_range (h : ∀ l, ord l ~ l) (hr : shardingType ord rp = some .range) :
    ∃ m ∈ rp.measurements, m.keyType = some .range := by
  obtain ⟨m, hm, hkey⟩ := shardingType_eq_some_iff.mp hr
  exact ⟨m, (h _).mem_iff.mp (mem_of_lastMatch hm), hkey⟩

/-- Where the orders do not agree on the type there are two types. -/
theorem mixed_of_shardingType {ord' : Order} (h : ∀ l, ord l ~ l) (h' : ∀ l, ord' l ~ l)
    (hr : shardingType ord rp = some .range) (hr' : shardingType ord' rp ≠ some .range) : Mixed rp := by
  refine ⟨exists_range h hr, ?_⟩
  obtain ⟨m, hm, hkey⟩ := exists_range h hr
  cases hl : lastMatch (fun m => ! m.shardKeys.isEmpty) (ord' rp.measurements) with
  | none =>
    have hempty := lastMatch_eq_none.mp hl m ((h' _).mem_iff.mpr hm)
    exact absurd (keyType_isSome_iff.mpr (by rw [hkey]; exact Option.some_ne_none _)) hempty
  | some x =>
    exact ⟨x, (h' _).mem_iff.mp (mem_of_lastMatch hl), keyType_isSome_iff.mp (lastMatch_eq_some.mp hl).1, fun hx =>
      hr' (shardingType_eq_some_iff.mpr ⟨x, hl, hx⟩)⟩

theorem shardingType_rangeLast (hm : ∃ m ∈ rp.measurements, m.keyType = some .range) :
    shardingType (inFront fun m => m.keyType ≠ some .range) rp = some .range := by
  obtain ⟨m, hm, hkey⟩ := hm
  obtain ⟨x, hx, hq⟩ := exists_lastMatch_inFront (q := fun m => m.keyType ≠ some .range)
    (p := fun m => ! m.shardKeys.isEmpty) hm (by simpa using hkey)
    (keyType_isSome_iff.mpr (by rw [hkey]; exact Option.some_ne_none _))
  exact shardingType_eq_some_iff.mpr ⟨x, hx, by simpa using hq⟩

theorem shardingType_rangeFirst (hm : ∃ m ∈ rp.measurements, m.keyType ≠ none ∧ m.keyType ≠ some .range) :
    shardingType (inFront fun m => m.keyType = some .range) rp ≠ some .range := by
  obtain ⟨m, hm, hsome, hkey⟩ := hm
  obtain ⟨x, hx, hq⟩ := exists_lastMatch_inFront (q := fun m => m.keyType = some .range)
    (p := fun m => ! m.shardKeys.isEmpty) hm (by simpa using hkey) (keyType_isSome_iff.mpr hsome)
  intro h
  obtain ⟨y, hy, hykey⟩ := shardingType_eq_some_iff.mp h
  rw [Option.mem_def.mp hx, Option.mem_some_iff] at hy
  subst hy
  simp [hykey] at hq

/-- Otherwise some order expands a policy that another leaves alone. -/
theorem stuck_or_whole {rps : List RetentionPolicyInfo} :
    (∀ P P' : Process, (expandGroups P.ord rps d).map (·.2) = (expandGroups P'.ord rps d).map (·.2)) →
    (∃ rp ∈ rps, (∀ m ∈ rp.measurements, m.keyType ≠ some .range) ∧ Stuck d.clusterPtNum rp.shardGroups) ∨
      ∀ rp ∈ rps, Mixed rp → Whole d.clusterPtNum rp := by
  intro h
  by_contra hnot
  obtain ⟨hfree, hmixed⟩ := not_or.mp hnot
  push Not at hmixed
  obtain ⟨rp, hrp, hm, hw⟩ := hmixed
  have heq := h (front fun m => m.keyType ≠ some .range) (front fun m => m.keyType = some .range)
  -- with the ranges last no policy is stuck
  have hlast : ¬ ∃ rp ∈ rps, shardingType (front fun m => m.keyType ≠ some .range).ord rp ≠ some .range ∧
      Stuck d.clusterPtNum rp.shardGroups := by
    rintro ⟨rp, hrp, hr, hs⟩
    refine hfree ⟨rp, hrp, fun m hm hkey => hr (shardingType_rangeLast ⟨m, hm, hkey⟩), hs⟩
  obtain ⟨-, d1, rps1, hsome, hall⟩ := expandGroups_spec.resolve_left fun h => hlast h.1
  rw [hsome, Option.map_some, eq_comm] at heq
  obtain ⟨⟨d2, rps2⟩, hsome2, hrps⟩ := Option.map_eq_some_iff.mp heq
  obtain ⟨-, d2', rps2', hsome2', hall2⟩ := expandGroups_spec.resolve_left fun h => by
    rw [h.2] at hsome2
    cases hsome2
  cases hsome2.symm.trans hsome2'
  cases hrps
  obtain ⟨i, hi, rfl⟩ := getElem_of_mem hrp
  have hi' : i < rps1.length := hall.length_eq ▸ hi
  have hone : rps1[i] = rps[i] := (hall.get hi hi').1 (shardingType_rangeLast hm.1)
  have htwo : Whole d.clusterPtNum rps1[i] := (hall2.get hi hi').2 (shardingType_rangeFirst hm.2)
  exact hw (hone ▸ htwo)

/-- An order makes no difference if the policies with two types have all their shards. -/
theorem expandGroups_eq {rps : List RetentionPolicyInfo} (P P' : Process)
    (h : ∀ rp ∈ rps, Mixed rp → Whole d.clusterPtNum rp) : expandGroups P.ord rps d = expandGroups P'.ord rps d := by
  induction rps generalizing d with
  | nil => rfl
  | cons rp rps ih =>
    have hone : expandPolicy P.ord d rp = expandPolicy P'.ord d rp := by
      by_cases hm : Mixed rp
      · rw [expandPolicy_of_whole (h rp mem_cons_self hm), expandPolicy_of_whole (h rp mem_cons_self hm)]
      · have hiff : shardingType P.ord rp = some .range ↔ shardingType P'.ord rp = some .range :=
          ⟨fun hr => not_not.mp fun hr' => hm (mixed_of_shardingType P.ord_perm P'.ord_perm hr hr'),
            fun hr => not_not.mp fun hr' => hm (mixed_of_shardingType P'.ord_perm P.ord_perm hr hr')⟩
        simp only [expandPolicy, hiff]
    rw [expandGroups, expandGroups, hone]
    refine Option.bind_congr fun x hx => ?_
    have hpt : x.1.clusterPtNum = d.clusterPtNum := by
      by_cases hr : shardingType P'.ord rp = some .range
      · rw [expandPolicy, if_pos hr] at hx
        cases hx
        rfl
      · rcases expandPolicy_spec hr with ⟨-, hnone⟩ | ⟨-, d', rp', hsome, hpt, -⟩
        · rw [hnone] at hx
          cases hx
        · rw [hsome] at hx
          cases hx
          exact hpt
    dsimp only
    rw [ih fun rp hrp hm => hpt ▸ h rp (mem_cons_of_mem _ hrp) hm]

end Expand

end GeminiTS.Catalog
