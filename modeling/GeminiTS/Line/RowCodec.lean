import GeminiTS.Lib.Slice
import GeminiTS.Line.IndexKey

/-!
# RowCodec — rows on the way to the store

Rows are sent to the store, and written to its log, as bytes (`influx/parser.go`). They are read back into rows and
pools of tags, fields and index options that are reused: what earlier batches left there is still in the storage.
-/

namespace GeminiTS.Line

open Lib

inductive FieldType
  | unknown
  | int
  | uint
  | float
  | string
  | boolean
  | tag
  deriving DecidableEq

/-- A field; of the two values, the one of its type counts. A number is the bits of its float. -/
structure Field where
  key : Bytes
  numValue : UInt64
  strValue : Bytes
  type : FieldType
  deriving DecidableEq

structure IndexOption where
  indexList : Slice UInt16
  oid : UInt32
  deriving DecidableEq

structure Row where
  streamOnly : Bool
  timestamp : Int64
  name : Bytes
  tags : PointTags
  fields : List Field
  indexKey : Bytes
  shardKey : Bytes
  indexOptions : List IndexOption
  skipMarshalShardKey : Bool
  deriving DecidableEq

/-- The zero values, as new storage holds them. -/
def Tag.zero : Tag := ⟨[], []⟩

def Field.zero : Field := ⟨[], 0, [], .unknown⟩

def IndexOption.zero : IndexOption := ⟨⟨[], []⟩, 0⟩

def Row.zero : Row := ⟨false, 0, [], [], [], [], [], [], false⟩

inductive RowError
  | pointMustHaveAMeasurement
  | pointMustHaveAField
  | invalidPoint
  | tooSmallForRowBinary
  | tooSmallForMeasurement
  | tooSmallForShardKey
  | tooSmallForTagKeyLen
  | tooSmallForTagKey
  | tooSmallForTagValue
  | tooSmallForFieldCount
  | tooSmallForFieldKeyLength
  | tooSmallForFieldKey
  | errorFieldType
  | tooSmallForStringFieldLength
  | tooSmallForStringFieldValue
  | tooSmallForField
  | tooSmallForIndexOption
  | rowCount
  | panic
  deriving DecidableEq

/-! ### Writing -/

def FieldType.code : FieldType → UInt8
  | unknown => 0
  | int => 1
  | uint => 2
  | float => 3
  | string => 4
  | boolean => 5
  | tag => 6

/-- Zig-zag: numbers near zero have many zero bits. -/
def zigZag (v : BitVec 64) : BitVec 64 := (v <<< 1) ^^^ (v.sshiftRight 63)

def marshalInt64 (v : Int64) : Bytes := beBytes 8 (zigZag v.toBitVec).toNat

def marshalTags (dst : Bytes) (tags : PointTags) : Bytes := dst ++ beBytes 4 tags.length ++ tags.flatMap marshalTag

def Field.bytes (f : Field) : Bytes := beBytes 2 f.key.length ++ (f.key ++ (f.type.code ::
    if f.type = .string then beBytes 8 f.strValue.length ++ f.strValue else beBytes 8 f.numValue.toNat))

def marshalFields (dst : Bytes) (fields : List Field) : Except RowError Bytes :=
  if fields = [] then .error .pointMustHaveAField
  else if fields.any fun f => f.type = .unknown then .error .invalidPoint
  else .ok (dst ++ beBytes 4 fields.length ++ fields.flatMap Field.bytes)

def IndexOption.bytes (o : IndexOption) : Bytes := beBytes 4 o.oid.toNat ++ (beBytes 2 o.indexList.items.length ++
    o.indexList.items.flatMap fun i => beBytes 2 i.toNat)

def hasIndexOption : UInt8 := 0x79

def hasNoIndexOption : UInt8 := 0x6e

def marshalIndexOptions (dst : Bytes) (options : List IndexOption) : Bytes :=
  if options = [] then dst ++ [hasNoIndexOption]
  else dst ++ [hasIndexOption] ++ beBytes 4 options.length ++ options.flatMap IndexOption.bytes

def fastMarshalBinary (dst : Bytes) (r : Row) : Except RowError Bytes := do
  if r.name = [] then throw .pointMustHaveAMeasurement
  let dst := dst ++ [UInt8.ofNat r.name.length] ++ r.name
  let dst := if r.skipMarshalShardKey then dst ++ beBytes 4 0
    else dst ++ beBytes 4 r.shardKey.length ++ r.shardKey
  let dst := marshalTags dst r.tags
  let dst ← marshalFields dst r.fields
  let dst := marshalIndexOptions dst r.indexOptions
  return dst ++ marshalInt64 r.timestamp

def messageVersion : UInt8 := 1

def fastMarshalMultiRows (src : Bytes) (rows : List Row) : Except RowError Bytes :=
  rows.foldlM fastMarshalBinary (src ++ beBytes 4 rows.length ++ [messageVersion])

/-! ### Reading -/

/-- A code of a known type. -/
def FieldType.ofCode : ℕ → Option FieldType
  | 1 => some int
  | 2 => some uint
  | 3 => some float
  | 4 => some string
  | 5 => some boolean
  | 6 => some tag
  | _ => none

def unZigZag (u : BitVec 64) : BitVec 64 := (u >>> 1) ^^^ ((u <<< 63).sshiftRight 63)

def unmarshalInt64 : FrontReader RowError Int64 := do
  let u ← readUint 8 fun _ => .panic
  return Int64.ofBitVec (unZigZag (BitVec.ofNat 64 u))

/-- A number of elements and the elements, over the old ones of a pool. -/
def unmarshalInto {α : Type} (zero : α) (p : α → FrontReader RowError α) (pool : Slice α) :
    FrontReader RowError (List α × Slice α) := do
  let n ← readUint 4 fun _ => .panic
  let start := pool.items.length
  let pool := pool.room zero n
  let xs ← readEach p (pool.items.drop start)
  return (xs, pool.refill start xs)

/-- A tag of a row, over an old one. The length of the value is compared with what is left from its own two bytes
on. -/
def unmarshalTag (old : Tag) : FrontReader RowError Tag := do
  require 1 fun _ => .tooSmallForTagKeyLen
  let tl ← readUint 2 fun _ => .panic
  require (tl + 1) fun _ => .tooSmallForTagKey
  let key ← takeBytes tl fun _ => .panic
  let vl ← readUint 2 fun _ => .panic
  require (vl - 2) fun _ => .tooSmallForTagValue
  let value ← takeBytes vl fun _ => .panic
  return { old with key := key, value := value }

def unmarshalTags : Slice Tag → FrontReader RowError (PointTags × Slice Tag) := unmarshalInto Tag.zero unmarshalTag

/-- The value of a string; its length is an `int`. -/
def unmarshalString : FrontReader RowError Bytes := do
  require 8 fun _ => .tooSmallForStringFieldLength
  let l ← readUint 8 fun _ => .panic
  if 2 ^ 63 ≤ l then throw .panic
  require l fun _ => .tooSmallForStringFieldValue
  takeBytes l fun _ => .panic

/-- A field over an old one, which keeps the value that is not of the type. -/
def unmarshalField (old : Field) : FrontReader RowError Field := do
  require 1 fun _ => .tooSmallForFieldKeyLength
  let l ← readUint 2 fun _ => .panic
  require (l + 1) fun _ => .tooSmallForFieldKey
  let key ← takeBytes l fun _ => .panic
  let code ← readUint 1 fun _ => .panic
  match FieldType.ofCode code with
  | none => throw .errorFieldType
  | some type =>
    if type = .string then
      let value ← unmarshalString
      return { old with key := key, type := type, strValue := value }
    else
      require 8 fun _ => .tooSmallForField
      let bits ← readUint 8 fun _ => .panic
      return { old with key := key, type := type, numValue := UInt64.ofNat bits }

def unmarshalFields : Slice Field → FrontReader RowError (List Field × Slice Field) :=
  unmarshalInto Field.zero unmarshalField

/-- The first `n` elements of a list are set; there may be less. -/
def setEach : List UInt16 → ℕ → FrontReader RowError (List UInt16)
  | list, 0 => pure list
  | [], _ + 1 => throw .panic
  | _ :: list, n + 1 => do
    let i ← readUint 2 fun _ => .panic
    let is ← setEach list n
    return UInt16.ofNat i :: is

/-- An old list for `n` entries: cut if its storage is longer, else made longer by what the storage lacks. -/
def indexListFor (list : Slice UInt16) (n : ℕ) : Slice UInt16 :=
  if n < list.cap then list.upTo n else list.append (List.replicate (n - list.cap) 0)

def unmarshalIndexOption (old : IndexOption) : FrontReader RowError IndexOption := do
  require 1 fun _ => .tooSmallForIndexOption
  let oid ← readUint 4 fun _ => .panic
  let indexListLen ← readUint 2 fun _ => .panic
  let indexList := indexListFor old.indexList indexListLen
  let items ← setEach indexList.items indexListLen
  return ⟨⟨items, indexList.spare⟩, UInt32.ofNat oid⟩

def unmarshalIndexOptions (indexOptionPool : Slice IndexOption) :
    FrontReader RowError (List IndexOption × Slice IndexOption) := do
  let isIndexOpt ← takeBytes 1 fun _ => .panic
  if isIndexOpt = [hasNoIndexOption] then return ([], indexOptionPool)
  else unmarshalInto IndexOption.zero unmarshalIndexOption indexOptionPool

/-- What is reused besides the rows. -/
structure Pools where
  tags : Slice Tag
  fields : Slice Field
  indexOptions : Slice IndexOption
  indexKeys : Slice UInt8

/-- A row over an old one. The sum of the shard key's length and four is a `uint32`. -/
def fastUnmarshalBinary (r : Row) (pools : Pools) : FrontReader RowError (Row × Pools) := do
  require 1 fun _ => .tooSmallForRowBinary
  let mLen ← readUint 1 fun _ => .panic
  require (mLen + 4) fun _ => .tooSmallForMeasurement
  let name ← takeBytes mLen fun _ => .panic
  let skLen ← readUint 4 fun _ => .panic
  require ((skLen + 4) % 2 ^ 32) fun _ => .tooSmallForShardKey
  let shardKey ← takeBytes skLen fun _ => .panic
  let (tags, tagpool) ← unmarshalTags pools.tags
  require 4 fun _ => .tooSmallForFieldCount
  let (fields, fieldpool) ← unmarshalFields pools.fields
  let (indexOptions, indexOptionPool) ← unmarshalIndexOptions pools.indexOptions
  let timestamp ← unmarshalInt64
  let indexKey := unmarshalIndexKeys name tags
  return ({ r with name := name, shardKey := shardKey, tags := tags, fields := fields, indexOptions := indexOptions,
                   timestamp := timestamp, indexKey := indexKey },
    ⟨tagpool, fieldpool, indexOptionPool, pools.indexKeys.append indexKey⟩)

/-- The rows are read as long as there are bytes; bytes behind the last row are only logged. -/
def unmarshalEach : List Row → Pools → Bytes → Except RowError (List Row × Pools)
  | [], pools, _ => .ok ([], pools)
  | _ :: _, _, [] => .error .rowCount
  | row :: rows, pools, b :: src => do
    let ((row, pools), src) ← fastUnmarshalBinary { row with streamOnly := false } pools (b :: src)
    let (rows, pools) ← unmarshalEach rows pools src
    return (row :: rows, pools)

/-- The rows to read into: the old ones if there are enough. -/
def rowsFor (rows : Slice Row) (pointsN : ℕ) : Slice Row :=
  if rows.cap < pointsN then ⟨List.replicate pointsN Row.zero, []⟩ else rows.upTo pointsN

def fastUnmarshalMultiRows (src : Bytes) (rows : Slice Row) (pools : Pools) : Except RowError (List Row × Pools) := do
  let (pointsN, src) ← readUint 4 (fun _ => .panic) src
  let (_, src) ← takeBytes 1 (fun _ => .panic) src
  unmarshalEach (rowsFor rows pointsN).items pools src

end GeminiTS.Line
