import GeminiTS.Line.RowCodec

/-!
# Routing — the shard key of a row, and the tags of a condition

A row is written to one shard of its group: the shard key is made of the row's tags and hashed (`points_writer.go`). A
query takes the tags its condition asks for from the comparisons in it (`shardinfo.go`).
-/

namespace GeminiTS.Shard

open Lib Line

/-! ### Metadata -/

structure ShardInfo where
  id : ℕ
  min : Bytes
  max : Bytes
  deriving DecidableEq

structure ShardGroupInfo where
  id : ℕ
  shards : List ShardInfo
  deriving DecidableEq

structure MeasurementInfo where
  name : Bytes
  schema : Bytes → Option FieldType
  initNumOfShards : ℕ
  shardIdexes : ℕ → List ℕ

def ShardGroupInfo.shardFor (g : ShardGroupInfo) (hash : ℕ) (idxes : List ℕ) : Option ShardInfo :=
  idxes[hash % idxes.length]?.bind fun i => g.shards[i]?

/-- All shards are alive. -/
def ShardGroupInfo.alive (g : ShardGroupInfo) : List ℕ := List.range g.shards.length

/-- The shards the hash of a key is spread over: all, or those of the measurement. -/
def MeasurementInfo.shardIdxes (m : MeasurementInfo) (g : ShardGroupInfo) : List ℕ :=
  if m.initNumOfShards = 0 then g.alive else m.shardIdexes g.id

/-! ### The writer -/

inductive RouteError
  | pointShouldHaveAllShardKey
  | duplicateTag (key : Bytes)
  | noShardKey
  | shardKeyTooLarge
  | pointMap2Shard
  | panic
  deriving DecidableEq

/-- A tag or field of a shard key, with the comma before it. -/
def pair (key value : Bytes) : Bytes := [0x2c] ++ key ++ [0x3d] ++ value

/-- The first of the indexed fields with this key; indexes count the tags first. -/
def findIndexed (r : Row) (key : Bytes) : List UInt16 → Except RouteError (Option Field)
  | [] => .ok none
  | v :: vs =>
    if v.toNat < r.tags.length then .error .panic
    else match r.fields[v.toNat - r.tags.length]? with
      | none => .error .panic
      | some f => if f.key = key then .ok (some f) else findIndexed r key vs

/-- A field for a missing tag: among those of the index relations with the number 2. -/
def fieldFor (r : Row) (key : Bytes) : Except RouteError (Option Field) :=
  findIndexed r key ((r.indexOptions.filter fun o => o.oid = 2).flatMap fun o => o.indexList.items)

/-- The first tag has the key of the next one. -/
def checkDuplicateTag (tag : Tag) (tags : PointTags) : Except RouteError Unit :=
  if (tags.head?.map Tag.key) = some tag.key then .error (.duplicateTag tag.key) else .ok ()

def checkDuplicates : PointTags → Except RouteError Unit
  | [] => .ok ()
  | tag :: tags => do
    checkDuplicateTag tag tags
    checkDuplicates tags

/-- The keys and the tags that are left, both in order, and the shard key so far. -/
def searchTag (r : Row) (keys : List Bytes) (tags : PointTags) (sk : Bytes) : Except RouteError Bytes :=
  match keys, tags with
  | [], tags => do
    checkDuplicates tags
    return sk
  | _ :: _, [] => .error .pointShouldHaveAllShardKey
  | k :: keys, tag :: tags =>
    if k < tag.key then do
      match ← fieldFor r k with
      | none => .error .pointShouldHaveAllShardKey
      | some f => searchTag r keys (tag :: tags) (sk ++ pair f.key f.strValue)
    else do
      checkDuplicateTag tag tags
      if k = tag.key then searchTag r keys tags (sk ++ pair tag.key tag.value)
      else searchTag r (k :: keys) tags sk
termination_by keys.length + tags.length
decreasing_by all_goals simp only [List.length_cons]; omega

def unmarshalShardKeyByTag (r : Row) (keys : List Bytes) : Except RouteError Bytes :=
  if keys = [] then do
    checkDuplicates r.tags
    return r.tags.foldl (fun sk tag => sk ++ pair tag.key tag.value) r.name
  else searchTag r keys r.tags r.name

def maxShardKey : ℕ := 64 * 1024

/-- What is known of a measurement, and `xxhash`. -/
structure Catalog where
  mst : MeasurementInfo
  hashID : Bytes → ℕ

/-! ### The query -/

inductive Op
  | and
  | or
  | eq
  | other (n : ℕ)
  deriving DecidableEq

/-- The conditions of a query; `literal` is any operand but a text. -/
inductive Expr
  | binary (op : Op) (lhs rhs : Expr)
  | varRef (val : Bytes)
  | stringLiteral (val : Bytes)
  | paren (e : Expr)
  | literal (n : ℕ)
  deriving DecidableEq

/-- The names that are `time` in lower case; the second letter may be a dotted capital. -/
def isTimeName (name : Bytes) : Bool :=
  ([[0x74], [0x54]].flatMap fun t => [[0x69], [0x49], [0xc4, 0xb0]].flatMap fun i =>
    [[0x6d], [0x4d]].flatMap fun m => [[0x65], [0x45]].map fun e => t ++ i ++ m ++ e).contains name

/-- `conditionTagsByBinary`: the comparison of a tag with a text. -/
def conditionTagsByBinary (schema : Bytes → Option FieldType) : Expr → Expr → Option Tag
  | .varRef key, .stringLiteral value =>
    if isTimeName key then none
    else if schema key = some .tag then some ⟨key, value⟩
    else none
  | _, _ => none

/-- The groups of tags of a condition. On the right of an AND, all groups are put into each group of the left. -/
def getConditionTags (schema : Bytes → Option FieldType) : Expr → List PointTags
  | .binary .and lhs rhs =>
    let ltags := getConditionTags schema lhs
    let rtags := getConditionTags schema rhs
    if ltags = [] then rtags
    else ltags.map fun l => l ++ rtags.flatten.filter fun tag => schema tag.key = some .tag
  | .binary .or lhs rhs => getConditionTags schema lhs ++ getConditionTags schema rhs
  | .binary .eq lhs rhs => (conditionTagsByBinary schema lhs rhs).toList.map fun tag => [tag]
  | _ => []

/-- `sort.Sort` for tags: any order of those with one key. -/
structure TagSort where
  sort : PointTags → PointTags
  perm : ∀ tags, (sort tags).Perm tags
  sorted : ∀ tags, (sort tags).Pairwise fun a b => a.key ≤ b.key

/-- What a query brings with it besides the condition. -/
structure QueryEnv extends Catalog where
  tagSort : TagSort
  forceBroadcast : Bool

/-- `genShardInfosByIndex` -/
def genShardInfosByIndex (g : ShardGroupInfo) (idxes : List ℕ) : List ShardInfo := idxes.filterMap fun i => g.shards[i]?

end GeminiTS.Shard
