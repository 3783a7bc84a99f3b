import GeminiTS.Lib.FrontReader

/-!
# IndexKey — the key of a series in the index

A series is a measurement and its tags. Its key in the index has the total length, the name, the number of tags and
the tags, each text with its length before it (`influx/parser.go`).
-/

namespace GeminiTS.Line

open Lib List

structure Tag where
  key : Bytes
  value : Bytes
  deriving DecidableEq

abbrev PointTags := List Tag

/-- What can be wrong with a key; `panic` is a read outside of it. -/
inductive KeyError
  | tooSmallData
  | tooSmallIndexKey
  | tooSmallMeasurement
  | tooSmallTagKey
  | tooSmallTagValue
  | panic
  deriving DecidableEq

/-! ### Writing -/

/-- A tag in the key: both texts with 16-bit lengths. -/
def marshalTag (tag : Tag) : Bytes := beBytes 2 tag.key.length ++ tag.key ++ (beBytes 2 tag.value.length ++ tag.value)

/-- `UnmarshalIndexKeys`: the key of a row with this name and these tags. -/
def unmarshalIndexKeys (name : Bytes) (tags : PointTags) : Bytes :=
  let indexKl := 4 + 2 + name.length + 2 + 4 * tags.length + (tags.map fun t => t.key.length + t.value.length).sum
  beBytes 4 indexKl ++ (beBytes 2 name.length ++ name) ++ (beBytes 2 tags.length ++ tags.flatMap marshalTag)

/-! ### Reading -/

/-- A name, with the number of tags behind it. -/
def readName : FrontReader KeyError Bytes := do
  let mnl ← readUint16 fun _ => .panic
  require (mnl + 2) fun _ => .tooSmallMeasurement
  takeBytes mnl fun _ => .panic

/-- `MeasurementName`: the name, the reader is then at the number of tags. -/
def measurementName : FrontReader KeyError Bytes := fun src =>
  if src.length < 4 then .error .tooSmallData
  else if src.length < beNat (src.take 4) then .error .tooSmallIndexKey
  else readName (src.drop 4)

/-- A tag of a key. -/
def readTag : FrontReader KeyError Tag := do
  let l ← readUint16 fun _ => .panic
  require (l + 2) fun _ => .tooSmallTagKey
  let key ← takeBytes l fun _ => .panic
  let l ← readUint16 fun _ => .panic
  require l fun _ => .tooSmallTagValue
  let value ← takeBytes l fun _ => .panic
  return ⟨key, value⟩

/-- The name and the tags of a key. -/
def readSeries : FrontReader KeyError (Bytes × PointTags) := do
  let name ← measurementName
  let tagsN ← readUint16 fun _ => .panic
  let tags ← times readTag tagsN
  return (name, tags)

def indexKeyToTags (src : Bytes) : Except KeyError PointTags := (fun r => r.1.2) <$> readSeries src

/-- The tags of a series key, as texts with a zero byte behind each. -/
def tagText (tag : Tag) : Bytes := tag.key ++ [0] ++ tag.value ++ [0]

/-- What `Parse2SeriesGroupKey` returns. -/
structure SeriesGroupKey where
  tags : PointTags
  seriesKey : Bytes
  nameLen : ℕ
  groupByAllSortedTag : Bool

/-- The series key is written over the index key that is read; it never reaches the bytes still to be read. -/
def parse2SeriesGroupKey (src : Bytes) (dims : List Bytes) : Except KeyError SeriesGroupKey :=
  (fun r => ⟨r.1.2, (r.1.1 ++ [0x2c] ++ r.1.2.flatMap tagText).dropLast, r.1.1.length,
    dims.length = r.1.2.length && dims = r.1.2.map Tag.key⟩) <$> readSeries src

/-! ### What was written is read back -/

/-- The lengths of a tag fit into 16 bits. -/
def Tag.Fits (tag : Tag) : Prop := tag.key.length < 2 ^ 16 ∧ tag.value.length < 2 ^ 16

theorem reads_readTag {tag : Tag} (h : tag.Fits) : Reads readTag (marshalTag tag) tag := by
  unfold readTag marshalTag
  rw [append_assoc]
  apply (Reads.uint16 h.1 _).bind
  apply Reads.require_bind
  · apply (Reads.takeBytes tag.key _).bind
    apply (Reads.uint16 h.2 _).bind
    apply Reads.require_bind
    · exact (Reads.takeBytes tag.value _).bind_pure (Tag.mk tag.key)
    · exact le_refl _
  · rw [length_append, length_append, length_beBytes]
    omega

theorem length_flatMap_marshalTag (tags : PointTags) :
    (tags.flatMap marshalTag).length = 4 * tags.length + (tags.map fun t => t.key.length + t.value.length).sum := by
  induction tags with
  | nil => rfl
  | cons tag tags ih =>
    simp only [flatMap_cons, length_append, ih, marshalTag, length_beBytes, length_cons, map_cons, sum_cons]
    omega

variable {name : Bytes} {tags : PointTags}

theorem readName_append (hname : name.length < 2 ^ 16) {t : Bytes} (ht : 2 ≤ t.length) :
    readName (beBytes 2 name.length ++ name ++ t) = .ok (name, t) := by
  rw [readName, bind_eq_ok, append_assoc]
  refine ⟨_, _, Reads.uint16 hname _ _, ?_⟩
  have hlen : require (name.length + 2) (fun _ => KeyError.tooSmallMeasurement) (name ++ t) = .ok ((), name ++ t) :=
    if_neg (by rw [length_append]; omega)
  exact bind_eq_ok.mpr ⟨_, _, hlen, Reads.takeBytes name _ t⟩

/-- The key of a row is read back if all lengths fit into 16 bits. -/
theorem readSeries_unmarshalIndexKeys (hname : name.length < 2 ^ 16) (hn : tags.length < 2 ^ 16)
    (htags : ∀ tag ∈ tags, tag.Fits) : readSeries (unmarshalIndexKeys name tags) = .ok ((name, tags), []) := by
  have hm : measurementName (unmarshalIndexKeys name tags) =
      .ok (name, beBytes 2 tags.length ++ tags.flatMap marshalTag) := by
    obtain ⟨kl, hkl⟩ : ∃ kl, kl = 4 + 2 + name.length + 2 + 4 * tags.length +
        (tags.map fun t => t.key.length + t.value.length).sum := ⟨_, rfl⟩
    have hkey : unmarshalIndexKeys name tags = beBytes 4 kl ++ ((beBytes 2 name.length ++ name) ++
        (beBytes 2 tags.length ++ tags.flatMap marshalTag)) := by
      rw [unmarshalIndexKeys, ← hkl, append_assoc]
    have hlen : (unmarshalIndexKeys name tags).length = kl := by
      rw [hkey]
      simp only [length_append, length_beBytes, length_flatMap_marshalTag]
      omega
    have htake : (unmarshalIndexKeys name tags).take 4 = beBytes 4 kl := by
      rw [hkey]
      exact take_left' (length_beBytes 4 kl)
    have hdrop : (unmarshalIndexKeys name tags).drop 4 = (beBytes 2 name.length ++ name) ++
        (beBytes 2 tags.length ++ tags.flatMap marshalTag) := by
      rw [hkey]
      exact drop_left' (length_beBytes 4 kl)
    -- The total length is cut to 32 bits, but never more than the length of the key.
    have hmod : beNat (beBytes 4 kl) ≤ kl := by
      rw [beNat_beBytes_mod]
      exact Nat.mod_le _ _
    rw [measurementName, if_neg (by omega), htake, if_neg (by omega), hdrop]
    exact readName_append hname (by rw [length_append, length_beBytes]; omega)
  rw [readSeries, bind_eq_ok]
  refine ⟨_, _, hm, ?_⟩
  have htimes : Reads (times readTag tags.length) (tags.flatMap marshalTag) tags :=
    Reads.times fun tag htag => reads_readTag (htags tag htag)
  have hrest : Reads (do
      let tagsN ← readUint16 fun _ => KeyError.panic
      let tags ← times readTag tagsN
      return (name, tags)) (beBytes 2 tags.length ++ tags.flatMap marshalTag) (name, tags) :=
    (Reads.uint16 hn _).bind (htimes.bind_pure (Prod.mk name))
  have hend := hrest []
  rwa [append_nil] at hend

end GeminiTS.Line
