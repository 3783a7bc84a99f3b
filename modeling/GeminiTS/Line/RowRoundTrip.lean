import GeminiTS.Lib.Lists
import GeminiTS.Line.RowCodec

/-!
# RowRoundTrip — rows survive the write path

A batch that is written and read back gives the same rows, whatever is in the rows and pools it is read into, if the
lengths fit into the bytes they are written in and no old index list is in the way.

* `Batch.survives_iff_safe` — the exact condition.
-/

namespace GeminiTS.Line

open Lib List
open Reads (uint require_bind takeBytes pure)

/-! ### Numbers -/

variable {pool : Slice IndexOption} {list : Slice UInt16} {olds : List Row} {f : Field} {options : List IndexOption}
  {rows : List Row} {tags : PointTags} {fields : List Field} {r : Row} {pools : Pools} {src : Bytes} (v : BitVec 64)
  (old : Field) (dst : Bytes)

theorem getLsbD_sign {i : ℕ} (hi : i < 64) : (v.sshiftRight 63).getLsbD i = v.getLsbD 63 := by
  rw [BitVec.getLsbD_sshiftRight]
  by_cases h : i = 0
  · subst h
    simp
  · have h63 : ¬ 63 + i < 64 := by omega
    simp [hi, h63, BitVec.msb_eq_getLsbD_last]

theorem unZigZag_zigZag : unZigZag (zigZag v) = v := by
  have hsign : (zigZag v).getLsbD 0 = v.getLsbD 63 := by
    rw [zigZag, BitVec.getLsbD_xor, getLsbD_sign v (by omega)]
    simp
  have hbit : (zigZag v <<< 63).getLsbD 63 = v.getLsbD 63 := by simpa using hsign
  apply BitVec.eq_of_getLsbD_eq
  intro i hi
  rw [unZigZag, BitVec.getLsbD_xor, getLsbD_sign _ hi, hbit, BitVec.getLsbD_ushiftRight]
  by_cases h : i = 63
  · subst h
    simp
  · have hi' : 1 + i < 64 := by omega
    rw [zigZag, BitVec.getLsbD_xor, getLsbD_sign v hi', BitVec.getLsbD_shiftLeft]
    simp [hi']

theorem reads_unmarshalInt64 (v : Int64) : Reads unmarshalInt64 (marshalInt64 v) v := by
  have hlt : (zigZag v.toBitVec).toNat < 256 ^ 8 := (zigZag v.toBitVec).isLt
  have hread : Reads unmarshalInt64 (marshalInt64 v)
      (Int64.ofBitVec (unZigZag (BitVec.ofNat 64 (zigZag v.toBitVec).toNat))) := (uint hlt _).bind_pure _
  rwa [BitVec.ofNat_toNat, BitVec.setWidth_eq, unZigZag_zigZag] at hread

theorem reads_byte {ε : Type} (b : UInt8) (short : ℕ → ε) : Reads (readUint 1 short) [b] b.toNat := by
  have hread := uint (show b.toNat < 256 ^ 1 from b.toNat_lt) short
  rwa [show beBytes 1 b.toNat = [b] by simp [beBytes]] at hread

/-! ### Reading into a pool -/

section Into

variable {α : Type} {zero : α} {p : α → FrontReader RowError α} {enc : α → Bytes} {R : α → α → Prop}

/-- What an old element needs to take a new one is asked of the storage only: a zero takes everything. -/
theorem reads_unmarshalInto {pool : Slice α} {xs : List α} (hn : xs.length < 2 ^ 32)
    (h : List.Forall₂ (fun old x => ∃ x', Reads (p old) (enc x) x' ∧ R x x') (pool.olds zero xs.length) xs) :
    ∃ xs', Reads (unmarshalInto zero p pool) (beBytes 4 xs.length ++ xs.flatMap enc)
      (xs', ⟨pool.items ++ xs', pool.spare.drop xs.length⟩) ∧ List.Forall₂ R xs xs' := by
  obtain ⟨xs', hread, hsame⟩ := Reads.readEach h
  refine ⟨xs', (uint hn _).bind ?_, hsame⟩
  dsimp only
  rw [Slice.drop_room]
  have hall := hread.bind_pure fun ys => (ys, (pool.room zero xs.length).refill pool.items.length ys)
  rwa [Slice.refill_room] at hall

theorem gives_unmarshalInto (hp : ∀ old, Gives (p old) (R old)) (pool : Slice α) :
    Gives (unmarshalInto zero p pool) fun r => r.1.length < 2 ^ 32 ∧
      List.Forall₂ R (pool.olds zero r.1.length) r.1 ∧ r.2.spare = pool.spare.drop r.1.length := by
  refine (Gives.uint 4 _).bind fun n hn => ?_
  dsimp only
  rw [Slice.drop_room]
  refine (Gives.readEach hp _).bind fun xs hxs => ?_
  have hlen : n = xs.length := by rw [← hxs.length_eq, Slice.length_olds]
  subst hlen
  refine Gives.pure ⟨hn, hxs, ?_⟩
  rw [Slice.refill_room]

end Into

/-! ### Tags -/

theorem reads_unmarshalTag (old : Tag) {tag : Tag} (h : tag.Fits) : Reads (unmarshalTag old) (marshalTag tag) tag := by
  have hvalue : Reads (do
      require (tag.value.length - 2) fun _ => RowError.tooSmallForTagValue
      let value ← takeBytes tag.value.length fun _ => RowError.panic
      return ({ old with key := tag.key, value := value })) tag.value tag := by
    apply require_bind
    · exact (takeBytes tag.value _).bind_pure (Tag.mk tag.key)
    · omega
  unfold unmarshalTag marshalTag
  rw [append_assoc]
  apply require_bind
  · apply (uint h.1 _).bind
    apply require_bind
    · exact (takeBytes tag.key _).bind ((uint h.2 _).bind hvalue)
    · simp only [length_append, length_beBytes]
      omega
  · simp only [length_append, length_beBytes]
    omega

theorem reads_unmarshalTags (pool : Slice Tag) (hn : tags.length < 2 ^ 32) (h : ∀ tag ∈ tags, tag.Fits) :
    ∃ pool', Reads (unmarshalTags pool) (beBytes 4 tags.length ++ tags.flatMap marshalTag) (tags, pool') := by
  have holds : List.Forall₂ (fun old tag => ∃ tag', Reads (unmarshalTag old) (marshalTag tag) tag' ∧ tag = tag')
      (pool.olds Tag.zero tags.length) tags := by
    rw [forall₂_iff_zip]
    refine ⟨Slice.length_olds _ _ _, fun {old tag} hmem => ⟨tag, ?_, rfl⟩⟩
    exact reads_unmarshalTag old (h tag (of_mem_zip hmem).2)
  obtain ⟨tags', hread, hsame⟩ := reads_unmarshalInto hn holds
  rw [forall₂_eq_eq_eq] at hsame
  subst hsame
  exact ⟨_, hread⟩

/-! ### Fields -/

/-- The same key, type and value of the type. -/
def Field.Same (f f' : Field) : Prop :=
  f.key = f'.key ∧ f.type = f'.type ∧
    if f.type = .string then f.strValue = f'.strValue else f.numValue = f'.numValue

/-- A key is written with 16 bits, the length of a string is an `int`. -/
def Field.Fits (f : Field) : Prop := f.key.length < 2 ^ 16 ∧ (f.type = .string → f.strValue.length < 2 ^ 63)

theorem Field.Same.fits {f' : Field} (h : f.Same f') (hf : f'.Fits) : f.Fits := by
  obtain ⟨hkey, htype, hvalue⟩ := h
  refine ⟨hkey ▸ hf.1, fun hstr => ?_⟩
  rw [if_pos hstr] at hvalue
  rw [hvalue]
  exact hf.2 (htype ▸ hstr)

theorem ofCode_code {t : FieldType} (h : t ≠ .unknown) : FieldType.ofCode t.code.toNat = some t := by
  cases t with
  | unknown => exact absurd rfl h
  | _ => rfl

theorem reads_unmarshalString {v : Bytes} (h : v.length < 2 ^ 63) :
    Reads unmarshalString (beBytes 8 v.length ++ v) v := by
  have h64 : v.length < 256 ^ 8 := by omega
  apply require_bind
  · apply (uint h64 _).bind
    rw [if_neg (by omega)]
    apply require_bind (takeBytes v _) (le_refl _)
  · rw [length_append, length_beBytes]
    omega

theorem gives_unmarshalString : Gives unmarshalString fun v => v.length < 2 ^ 63 := by
  refine (Gives.any _).bind fun _ _ => (Gives.any _).bind fun l _ => ?_
  by_cases hl : 2 ^ 63 ≤ l
  · rw [if_pos hl]
    exact (Gives.throw _).bind fun _ h => h
  · rw [if_neg hl]
    refine (Gives.any _).bind fun _ _ => ?_
    intro s v r hv
    rw [Gives.takeBytes l _ s v r hv]
    omega

theorem reads_unmarshalField (h : f.Fits) (ht : f.type ≠ .unknown) :
    ∃ f', Reads (unmarshalField old) f.bytes f' ∧ f.Same f' := by
  have hvalue : ∃ f', Reads (if f.type = .string then do
      let value ← unmarshalString
      return { old with key := f.key, type := f.type, strValue := value }
    else do
      require 8 fun _ => RowError.tooSmallForField
      let bits ← readUint 8 fun _ => RowError.panic
      return { old with key := f.key, type := f.type, numValue := UInt64.ofNat bits })
      (if f.type = .string then beBytes 8 f.strValue.length ++ f.strValue else beBytes 8 f.numValue.toNat) f' ∧
      f.Same f' := by
    by_cases hstr : f.type = .string
    · refine ⟨{ old with key := f.key, type := f.type, strValue := f.strValue }, ?_, rfl, rfl, ?_⟩
      · rw [if_pos hstr, if_pos hstr]
        exact (reads_unmarshalString (h.2 hstr)).bind_pure _
      · rw [if_pos hstr]
    · refine ⟨{ old with key := f.key, type := f.type, numValue := f.numValue }, ?_, rfl, rfl, ?_⟩
      · rw [if_neg hstr, if_neg hstr]
        apply require_bind
        · have hbits := (uint (show f.numValue.toNat < 256 ^ 8 from f.numValue.toNat_lt)
            fun _ => RowError.panic).bind_pure
              fun bits => ({ old with key := f.key, type := f.type, numValue := UInt64.ofNat bits })
          rwa [UInt64.ofNat_toNat] at hbits
        · exact le_of_eq (length_beBytes 8 _).symm
      · rw [if_neg hstr]
  obtain ⟨f', hread, hsame⟩ := hvalue
  refine ⟨f', ?_, hsame⟩
  unfold unmarshalField Field.bytes
  apply require_bind
  · apply (uint h.1 _).bind
    apply require_bind
    · apply (takeBytes f.key _).bind
      apply (reads_byte f.type.code _).bind
      rw [ofCode_code ht]
      exact hread
    · rw [length_append, length_cons]
      omega
  · rw [length_append, length_beBytes]
    omega

theorem gives_unmarshalField : Gives (unmarshalField old) Field.Fits := by
  refine (Gives.any _).bind fun _ _ => (Gives.uint 2 _).bind fun l hl => (Gives.any _).bind fun _ _ => ?_
  refine (Gives.takeBytes l _).bind fun key hkey => (Gives.any _).bind fun code _ => ?_
  cases FieldType.ofCode code with
  | none => exact Gives.throw _
  | some type =>
    dsimp only
    by_cases hstr : type = .string
    · rw [if_pos hstr]
      refine gives_unmarshalString.bind fun value hvalue => Gives.pure ⟨?_, fun _ => hvalue⟩
      rwa [hkey]
    · rw [if_neg hstr]
      refine (Gives.any _).bind fun _ _ => (Gives.any _).bind fun _ _ => Gives.pure ⟨?_, fun h => absurd h hstr⟩
      rwa [hkey]

theorem reads_unmarshalFields (pool : Slice Field) (hn : fields.length < 2 ^ 32) (h : ∀ f ∈ fields, f.Fits)
    (ht : ∀ f ∈ fields, f.type ≠ .unknown) : ∃ fields' pool', Reads (unmarshalFields pool)
      (beBytes 4 fields.length ++ fields.flatMap Field.bytes) (fields', pool') ∧
        List.Forall₂ Field.Same fields fields' := by
  have holds : List.Forall₂ (fun old f => ∃ f', Reads (unmarshalField old) f.bytes f' ∧ f.Same f')
      (pool.olds Field.zero fields.length) fields := by
    rw [forall₂_iff_zip]
    refine ⟨Slice.length_olds _ _ _, fun {old f} hmem => ?_⟩
    have hf := (of_mem_zip hmem).2
    exact reads_unmarshalField old (h f hf) (ht f hf)
  obtain ⟨fields', hread, hsame⟩ := reads_unmarshalInto hn holds
  exact ⟨fields', _, hread, hsame⟩

theorem gives_unmarshalFields (pool : Slice Field) : Gives (unmarshalFields pool) fun r =>
    r.1.length < 2 ^ 32 ∧ ∀ f ∈ r.1, f.Fits := by
  intro s r t h
  obtain ⟨hn, hall, -⟩ := gives_unmarshalInto gives_unmarshalField pool s r t h
  refine ⟨hn, fun f hf => ?_⟩
  obtain ⟨_, -, hfits⟩ := exists_of_mem_right hall hf
  exact hfits

/-! ### Index options -/

/-- An old list takes `n` entries if its storage is longer or in use entirely. -/
def Takes (list : Slice UInt16) (n : ℕ) : Prop := n < list.cap ∨ list.spare = []

theorem length_indexListFor {n : ℕ} (h : Takes list n) : (indexListFor list n).items.length = n := by
  rw [indexListFor]
  by_cases hn : n < list.cap
  · rw [if_pos hn]
    apply length_take_of_le
    rw [length_append]
    exact le_of_lt hn
  · have hspare : list.cap = list.items.length := by rw [Slice.cap, h.resolve_left hn, length_nil, Nat.add_zero]
    rw [if_neg hn]
    show (list.items ++ _).length = n
    rw [length_append, length_replicate]
    omega

theorem takes_of_le_length {n : ℕ} (h : n ≤ (indexListFor list n).items.length) : Takes list n := by
  rw [indexListFor] at h
  by_cases hn : n < list.cap
  · exact .inl hn
  · rw [if_neg hn] at h
    change n ≤ (list.items ++ _).length at h
    rw [length_append, length_replicate] at h
    rw [Slice.cap] at h hn
    exact .inr (length_eq_zero_iff.mp (by omega))

theorem reads_setEach {list is : List UInt16} (h : list.length = is.length) :
    Reads (setEach list is.length) (is.flatMap fun i => beBytes 2 i.toNat) is := by
  induction is generalizing list with
  | nil =>
    cases length_eq_zero_iff.mp h
    exact pure []
  | cons i is ih =>
    cases list with
    | nil => cases h
    | cons j list =>
      apply (uint (show i.toNat < 256 ^ 2 from i.toNat_lt) _).bind
      rw [UInt16.ofNat_toNat]
      exact (ih (Nat.succ.inj h)).bind_pure (i :: ·)

theorem gives_setEach (list : List UInt16) (n : ℕ) :
    Gives (setEach list n) fun is => n ≤ list.length ∧ is.length = list.length := by
  induction list generalizing n with
  | nil =>
    cases n with
    | zero => exact Gives.pure ⟨le_refl _, rfl⟩
    | succ n => exact Gives.throw _
  | cons j list ih =>
    cases n with
    | zero => exact Gives.pure ⟨Nat.zero_le _, rfl⟩
    | succ n =>
      refine (Gives.any _).bind fun _ _ => (ih n).bind fun is his => Gives.pure ⟨?_, ?_⟩
      · exact Nat.succ_le_succ his.1
      · rw [length_cons, length_cons, his.2]

def IndexOption.Same (o o' : IndexOption) : Prop := o.oid = o'.oid ∧ o.indexList.items = o'.indexList.items

theorem reads_unmarshalIndexOption {old o : IndexOption} (h : o.indexList.items.length < 2 ^ 16)
    (hold : Takes old.indexList o.indexList.items.length) :
    ∃ o', Reads (unmarshalIndexOption old) o.bytes o' ∧ o.Same o' := by
  refine ⟨⟨⟨o.indexList.items, (indexListFor old.indexList o.indexList.items.length).spare⟩, o.oid⟩, ?_, rfl, rfl⟩
  unfold unmarshalIndexOption IndexOption.bytes
  apply require_bind
  · apply (uint (show o.oid.toNat < 256 ^ 4 from o.oid.toNat_lt) _).bind
    apply (uint h _).bind
    rw [UInt32.ofNat_toNat]
    exact (reads_setEach (length_indexListFor hold)).bind_pure _
  · rw [length_append, length_beBytes]
    omega

theorem gives_unmarshalIndexOption (old : IndexOption) : Gives (unmarshalIndexOption old) fun o =>
    o.indexList.items.length < 2 ^ 16 ∧ Takes old.indexList o.indexList.items.length := by
  refine (Gives.any _).bind fun _ _ => (Gives.any _).bind fun oid _ => (Gives.uint 2 _).bind fun n hn => ?_
  refine (gives_setEach _ _).bind fun items hitems => Gives.pure ?_
  have htakes := takes_of_le_length hitems.1
  have hlen : items.length = n := hitems.2.trans (length_indexListFor htakes)
  exact ⟨hlen ▸ hn, hlen ▸ htakes⟩

/-- The old options take lists of these lengths, one after the other. -/
def TakesEach (olds : List IndexOption) (lens : List ℕ) : Prop := ∀ p ∈ olds.zip lens, Takes p.1.indexList p.2

theorem takesEach_append {olds : List IndexOption} {ms ns : List ℕ} :
    TakesEach olds (ms ++ ns) ↔ TakesEach olds ms ∧ TakesEach (olds.drop ms.length) ns := by
  have hzip : olds.zip (ms ++ ns) = olds.zip ms ++ (olds.drop ms.length).zip ns := by
    induction ms generalizing olds with
    | nil => rw [zip_nil_right, length_nil, drop_zero, nil_append, nil_append]
    | cons m ms ih =>
      cases olds with
      | nil => rfl
      | cons o olds => rw [cons_append, zip_cons_cons, ih]; rfl
  rw [TakesEach, hzip]
  exact forall_mem_append

/-- Behind the storage there are empty lists, which take everything. -/
theorem takesEach_iff_olds {lens : List ℕ} : TakesEach pool.spare lens ↔
    List.Forall₂ (fun old n => Takes old.indexList n) (pool.olds IndexOption.zero lens.length) lens := by
  rw [Slice.olds, TakesEach]
  generalize pool.spare = spare
  induction lens generalizing spare with
  | nil => simp
  | cons n lens ih =>
    cases spare with
    | nil =>
      have hzero : Takes IndexOption.zero.indexList n := .inr rfl
      have ih := ih []
      simp only [take_nil, length_nil, Nat.sub_zero, nil_append] at ih ⊢
      rw [length_cons, replicate_succ, forall₂_cons, and_iff_right hzero]
      exact ih
    | cons o spare =>
      rw [zip_cons_cons, forall_mem_cons, ih spare, length_cons, take_succ_cons, cons_append,
        length_cons, Nat.add_sub_add_right, forall₂_cons]

/-- The lengths of the lists. -/
def listLens (options : List IndexOption) : List ℕ := options.map fun o => o.indexList.items.length

theorem listLens_eq {options' : List IndexOption} (h : List.Forall₂ IndexOption.Same options options') :
    listLens options = listLens options' := by
  induction h with
  | nil => rfl
  | @cons o o' _ _ hsame _ ih =>
    rw [listLens, map_cons, hsame.2]
    exact congrArg (_ :: ·) ih

/-- What is written of the options. -/
def optionsBytes (options : List IndexOption) : Bytes :=
  if options = [] then [hasNoIndexOption]
  else [hasIndexOption] ++ (beBytes 4 options.length ++ options.flatMap IndexOption.bytes)

theorem marshalIndexOptions_eq (options : List IndexOption) :
    marshalIndexOptions dst options = dst ++ optionsBytes options := by
  rw [marshalIndexOptions, optionsBytes]
  split_ifs
  · rfl
  · rw [append_assoc, append_assoc]

theorem reads_unmarshalIndexOptions (hn : options.length < 2 ^ 32) (hlens : ∀ n ∈ listLens options, n < 2 ^ 16)
    (htakes : TakesEach pool.spare (listLens options)) :
    ∃ options' pool', Reads (unmarshalIndexOptions pool) (optionsBytes options) (options', pool') ∧
      List.Forall₂ IndexOption.Same options options' ∧ pool'.spare = pool.spare.drop options.length := by
  rw [optionsBytes]
  by_cases hnil : options = []
  · subst hnil
    refine ⟨[], pool, ?_, .nil, rfl⟩
    apply (takeBytes [hasNoIndexOption] _).bind
    exact pure _
  · have holds : List.Forall₂ (fun old o => ∃ o', Reads (unmarshalIndexOption old) o.bytes o' ∧ o.Same o')
        (pool.olds IndexOption.zero options.length) options := by
      have htakes := takesEach_iff_olds.mp htakes
      rw [listLens, length_map, forall₂_map_right_iff, forall₂_iff_zip] at htakes
      rw [forall₂_iff_zip]
      refine ⟨htakes.1, fun {old o} hmem => ?_⟩
      have hlen := hlens _ (mem_map_of_mem (of_mem_zip hmem).2)
      exact reads_unmarshalIndexOption hlen (htakes.2 hmem)
    obtain ⟨options', hread, hsame⟩ := reads_unmarshalInto hn holds
    refine ⟨options', ⟨pool.items ++ options', pool.spare.drop options.length⟩, ?_, hsame, rfl⟩
    rw [if_neg hnil]
    apply (takeBytes [hasIndexOption] _).bind
    exact hread

theorem gives_unmarshalIndexOptions (pool : Slice IndexOption) : Gives (unmarshalIndexOptions pool) fun r =>
    r.1.length < 2 ^ 32 ∧ (∀ n ∈ listLens r.1, n < 2 ^ 16) ∧ TakesEach pool.spare (listLens r.1) ∧
      r.2.spare = pool.spare.drop r.1.length := by
  refine (Gives.any _).bind fun isIndexOpt _ => ?_
  by_cases hno : isIndexOpt = [hasNoIndexOption]
  · rw [if_pos hno]
    refine Gives.pure ⟨Nat.two_pow_pos 32, fun _ h => absurd h not_mem_nil, fun p hp => ?_, rfl⟩
    rw [listLens, map_nil, zip_nil_right] at hp
    exact absurd hp not_mem_nil
  · rw [if_neg hno]
    intro s r t h
    obtain ⟨hn, hall, hspare⟩ := gives_unmarshalInto gives_unmarshalIndexOption pool s r t h
    refine ⟨hn, ?_, takesEach_iff_olds.mpr ?_, hspare⟩
    · intro n hmem
      obtain ⟨o, ho, rfl⟩ := mem_map.mp hmem
      obtain ⟨old, -, hold⟩ := exists_of_mem_right hall ho
      exact hold.1
    · rw [listLens, length_map, forall₂_map_right_iff]
      exact hall.imp fun _ _ h => h.2

/-! ### Rows -/

/-- The lengths of a row fit into the bytes they are written in; the number of tags also into those of the index
key. -/
structure Row.Fits (r : Row) : Prop where
  shardKey : r.skipMarshalShardKey = false → r.shardKey.length < 2 ^ 32
  tagN : r.tags.length < 2 ^ 16
  tags : ∀ tag ∈ r.tags, tag.Fits
  fieldN : r.fields.length < 2 ^ 32
  fields : ∀ f ∈ r.fields, f.Fits
  indexN : r.indexOptions.length < 2 ^ 32
  indexLists : ∀ n ∈ listLens r.indexOptions, n < 2 ^ 16

/-- A row as a batch may have it. -/
structure Row.Sound (r : Row) : Prop where
  name_pos : 0 < r.name.length
  name_le : r.name.length ≤ 255
  fields_ne : r.fields ≠ []
  known : ∀ f ∈ r.fields, f.type ≠ .unknown

/-- What is read back of a row. -/
structure Row.Survives (r r' : Row) : Prop where
  name : r'.name = r.name
  shardKey : r'.shardKey = if r.skipMarshalShardKey then [] else r.shardKey
  tags : r'.tags = r.tags
  fields : List.Forall₂ Field.Same r.fields r'.fields
  indexOptions : List.Forall₂ IndexOption.Same r.indexOptions r'.indexOptions
  timestamp : r'.timestamp = r.timestamp
  indexKey : indexKeyToTags r'.indexKey = .ok r.tags

def Row.shardKeyBytes (r : Row) : Bytes := if r.skipMarshalShardKey then [] else r.shardKey

def Row.bytes (r : Row) : Bytes :=
  [UInt8.ofNat r.name.length] ++ (r.name ++ (beBytes 4 r.shardKeyBytes.length ++ (r.shardKeyBytes ++
    ((beBytes 4 r.tags.length ++ r.tags.flatMap marshalTag) ++
      ((beBytes 4 r.fields.length ++ r.fields.flatMap Field.bytes) ++
        (optionsBytes r.indexOptions ++ marshalInt64 r.timestamp))))))

theorem marshalFields_eq (hne : fields ≠ []) (hknown : ∀ f ∈ fields, f.type ≠ .unknown) :
    marshalFields dst fields = .ok (dst ++ beBytes 4 fields.length ++ fields.flatMap Field.bytes) := by
  rw [marshalFields, if_neg hne]
  simpa using hknown

theorem fastMarshalBinary_eq (h : r.Sound) : fastMarshalBinary dst r = .ok (dst ++ r.bytes) := by
  have hname : r.name ≠ [] := length_pos_iff.mp h.name_pos
  have hkey : ∀ dst : Bytes, (if r.skipMarshalShardKey then dst ++ beBytes 4 0
      else dst ++ beBytes 4 r.shardKey.length ++ r.shardKey) =
      dst ++ (beBytes 4 r.shardKeyBytes.length ++ r.shardKeyBytes) := by
    intro dst
    rw [Row.shardKeyBytes]
    split_ifs
    · rw [length_nil, append_nil]
    · rw [append_assoc]
  rw [fastMarshalBinary, if_neg hname]
  simp only [hkey, marshalTags, marshalFields_eq _ h.fields_ne h.known, marshalIndexOptions_eq]
  refine congrArg Except.ok ?_
  simp only [Row.bytes, append_assoc]

theorem indexKeyToTags_unmarshalIndexKeys {name : Bytes} (hname : name.length ≤ 255) (hn : tags.length < 2 ^ 16)
    (htags : ∀ tag ∈ tags, tag.Fits) : indexKeyToTags (unmarshalIndexKeys name tags) = .ok tags := by
  rw [indexKeyToTags, readSeries_unmarshalIndexKeys (by omega) hn htags]
  rfl

/-- **A row is read back** into any old row and pools, if its lengths fit and the old options take its lists. -/
theorem reads_fastUnmarshalBinary (old : Row) (h : r.Sound) (hfits : r.Fits)
    (htakes : TakesEach pools.indexOptions.spare (listLens r.indexOptions)) :
    ∃ r' pools', Reads (fastUnmarshalBinary old pools) r.bytes (r', pools') ∧ r.Survives r' ∧
      pools'.indexOptions.spare = pools.indexOptions.spare.drop r.indexOptions.length := by
  have hname : (UInt8.ofNat r.name.length).toNat = r.name.length := by
    exact Nat.mod_eq_of_lt (by have := h.name_le; omega)
  have hkey : r.shardKeyBytes.length < 2 ^ 32 := by
    rw [Row.shardKeyBytes]
    split_ifs with hskip
    · exact Nat.two_pow_pos 32
    · exact hfits.shardKey (Bool.not_eq_true _ ▸ hskip)
  obtain ⟨tagpool, htags⟩ := reads_unmarshalTags pools.tags (hfits.tagN.trans (by omega)) hfits.tags
  obtain ⟨fields, fieldpool, hfields, hsameF⟩ := reads_unmarshalFields pools.fields hfits.fieldN hfits.fields h.known
  obtain ⟨options, optionPool, hoptions, hsameO, hspare⟩ :=
    reads_unmarshalIndexOptions hfits.indexN hfits.indexLists htakes
  refine ⟨{ old with name := r.name, shardKey := r.shardKeyBytes, tags := r.tags, fields := fields,
                     indexOptions := options, timestamp := r.timestamp,
                     indexKey := unmarshalIndexKeys r.name r.tags },
    ⟨tagpool, fieldpool, optionPool, pools.indexKeys.append (unmarshalIndexKeys r.name r.tags)⟩, ?_, ?_, hspare⟩
  · unfold fastUnmarshalBinary Row.bytes
    apply require_bind
    · apply (reads_byte _ _).bind
      rw [hname]
      apply require_bind
      · apply (takeBytes r.name _).bind
        apply (uint hkey _).bind
        apply require_bind
        · apply (takeBytes r.shardKeyBytes _).bind
          apply htags.bind
          apply require_bind
          · exact hfields.bind (hoptions.bind ((reads_unmarshalInt64 _).bind_pure _))
          · simp only [length_append, length_beBytes]
            omega
        · simp only [length_append, length_beBytes]
          omega
      · simp only [length_append, length_beBytes]
        omega
    · rw [length_append, length_singleton]
      omega
  · exact {
      name := rfl
      shardKey := rfl
      tags := rfl
      fields := hsameF
      indexOptions := hsameO
      timestamp := rfl
      indexKey := indexKeyToTags_unmarshalIndexKeys h.name_le hfits.tagN hfits.tags }

/-- What bounds a row that was read. -/
structure Row.Bounded (r : Row) : Prop where
  shardKey : r.shardKey.length < 2 ^ 32
  fieldN : r.fields.length < 2 ^ 32
  fields : ∀ f ∈ r.fields, f.Fits
  indexN : r.indexOptions.length < 2 ^ 32
  indexLists : ∀ n ∈ listLens r.indexOptions, n < 2 ^ 16

theorem gives_fastUnmarshalBinary (old : Row) (pools : Pools) : Gives (fastUnmarshalBinary old pools) fun x =>
    x.1.Bounded ∧ TakesEach pools.indexOptions.spare (listLens x.1.indexOptions) ∧
      x.2.indexOptions.spare = pools.indexOptions.spare.drop x.1.indexOptions.length := by
  refine (Gives.any _).bind fun _ _ => (Gives.any _).bind fun _ _ => (Gives.any _).bind fun _ _ => ?_
  refine (Gives.any _).bind fun name _ => (Gives.uint 4 _).bind fun skLen hsk => (Gives.any _).bind fun _ _ => ?_
  refine (Gives.takeBytes skLen _).bind fun shardKey hkey => (Gives.any _).bind fun tags _ => ?_
  refine (Gives.any _).bind fun _ _ => (gives_unmarshalFields _).bind fun fields hfields => ?_
  refine (gives_unmarshalIndexOptions _).bind fun options hoptions => (Gives.any _).bind fun ts _ => Gives.pure ?_
  obtain ⟨hn, hlens, htakes, hspare⟩ := hoptions
  have hbounded : skLen = shardKey.length := hkey.symm
  subst hbounded
  exact ⟨⟨hsk, hfields.1, hfields.2, hn, hlens⟩, htakes, hspare⟩

/-! ### Batches -/

theorem unmarshalEach_cons (row : Row) (rows : List Row) (pools : Pools) (h : src ≠ []) :
    unmarshalEach (row :: rows) pools src = (do
      let ((row, pools), src) ← fastUnmarshalBinary { row with streamOnly := false } pools src
      let (rows, pools) ← unmarshalEach rows pools src
      return (row :: rows, pools)) := by
  cases src with
  | nil => exact absurd rfl h
  | cons b src => rfl

theorem unmarshalEach_bytes (hlen : olds.length = rows.length) (hsound : ∀ r ∈ rows, r.Sound)
    (hfits : ∀ r ∈ rows, r.Fits)
    (htakes : TakesEach pools.indexOptions.spare (rows.flatMap fun r => listLens r.indexOptions)) :
    ∃ rows' pools', unmarshalEach olds pools (rows.flatMap Row.bytes) = .ok (rows', pools') ∧
      List.Forall₂ Row.Survives rows rows' := by
  induction rows generalizing olds pools with
  | nil =>
    cases length_eq_zero_iff.mp hlen
    exact ⟨[], pools, rfl, .nil⟩
  | cons r rows ih =>
    obtain ⟨old, olds, rfl⟩ := exists_cons_of_length_eq_add_one hlen
    rw [forall_mem_cons] at hsound hfits
    rw [flatMap_cons, takesEach_append] at htakes
    obtain ⟨r', pools', hread, hsurvives, hspare⟩ :=
      reads_fastUnmarshalBinary { old with streamOnly := false } hsound.1 hfits.1 htakes.1
    have hrest : TakesEach pools'.indexOptions.spare (rows.flatMap fun r => listLens r.indexOptions) := by
      rw [hspare]
      simpa only [listLens, length_map] using htakes.2
    obtain ⟨rows', pools'', heach, hall⟩ := ih (Nat.succ.inj hlen) hsound.2 hfits.2 hrest
    refine ⟨r' :: rows', pools'', ?_, .cons hsurvives hall⟩
    rw [flatMap_cons, unmarshalEach_cons _ _ _ (by rw [Row.bytes]; simp), hread]
    show (unmarshalEach olds pools' (rows.flatMap Row.bytes) >>= _) = _
    rw [heach]
    rfl

theorem unmarshalEach_ok {pools' : Pools} (h : unmarshalEach olds pools src = .ok (rows, pools')) :
    rows.length = olds.length ∧ (∀ r ∈ rows, r.Bounded) ∧
      TakesEach pools.indexOptions.spare (rows.flatMap fun r => listLens r.indexOptions) := by
  induction olds generalizing rows pools src with
  | nil =>
    cases h
    exact ⟨rfl, fun _ h => absurd h not_mem_nil, fun p hp => absurd (zip_nil_right ▸ hp) not_mem_nil⟩
  | cons old olds ih =>
    cases src with
    | nil => cases h
    | cons b src =>
      obtain ⟨⟨⟨r, pools1⟩, src1⟩, hrow, h⟩ := except_bind_eq_ok.mp h
      obtain ⟨⟨rows, pools2⟩, heach, h⟩ := except_bind_eq_ok.mp h
      cases h
      obtain ⟨hbounded, htakes, hspare⟩ := gives_fastUnmarshalBinary _ _ _ _ _ hrow
      obtain ⟨hlen, hall, hrest⟩ := ih heach
      refine ⟨congrArg (· + 1) hlen, forall_mem_cons.mpr ⟨hbounded, hall⟩, ?_⟩
      rw [flatMap_cons, takesEach_append]
      refine ⟨htakes, ?_⟩
      rwa [listLens, length_map, ← hspare]

theorem foldlM_fastMarshalBinary (h : ∀ r ∈ rows, r.Sound) (dst : Bytes) :
    rows.foldlM fastMarshalBinary dst = .ok (dst ++ rows.flatMap Row.bytes) := by
  induction rows generalizing dst with
  | nil =>
    rw [flatMap_nil, append_nil]
    rfl
  | cons r rows ih =>
    rw [forall_mem_cons] at h
    rw [foldlM_cons, fastMarshalBinary_eq dst h.1, flatMap_cons, ← append_assoc]
    exact ih h.2 (dst ++ r.bytes)

theorem length_rowsFor (rows : Slice Row) (n : ℕ) : (rowsFor rows n).items.length = n := by
  rw [rowsFor]
  by_cases h : rows.cap < n
  · rw [if_pos h]
    exact length_replicate
  · rw [if_neg h]
    apply length_take_of_le
    rw [length_append]
    exact not_lt.mp h

/-- The head of a batch is read, with its number of rows cut to 32 bits. -/
theorem fastUnmarshalMultiRows_eq (n : ℕ) (src : Bytes) (rows : Slice Row) (pools : Pools) :
    fastUnmarshalMultiRows (beBytes 4 n ++ [messageVersion] ++ src) rows pools =
      unmarshalEach (rowsFor rows (n % 2 ^ 32)).items pools src := by
  have hcount : Reads (readUint 4 fun _ => RowError.panic) (beBytes 4 n) (n % 2 ^ 32) := by
    have hread := (takeBytes (beBytes 4 n) fun _ => RowError.panic).map beNat
    rwa [beNat_beBytes_mod] at hread
  have hversion : takeBytes 1 (fun _ => RowError.panic) ([messageVersion] ++ src) = .ok ([messageVersion], src) :=
    takeBytes [messageVersion] _ src
  simp only [fastUnmarshalMultiRows, append_assoc, hcount _, bind, Except.bind, hversion]

theorem gives_readTag : Gives readTag Tag.Fits := by
  refine (Gives.uint 2 _).bind fun kl hkl => (Gives.any _).bind fun _ _ => ?_
  refine (Gives.takeBytes kl _).bind fun key hkey => (Gives.uint 2 _).bind fun vl hvl => ?_
  refine (Gives.any _).bind fun _ _ => (Gives.takeBytes vl _).bind fun value hvalue => Gives.pure ⟨?_, ?_⟩
  · rwa [hkey]
  · rwa [hvalue]

theorem fits_of_indexKeyToTags (h : indexKeyToTags src = .ok tags) : tags.length < 2 ^ 16 ∧ ∀ tag ∈ tags, tag.Fits := by
  have hseries : Gives readSeries fun x => x.2.length < 2 ^ 16 ∧ ∀ tag ∈ x.2, tag.Fits := by
    refine (Gives.any _).bind fun name _ => (Gives.uint 2 _).bind fun n hn => ?_
    refine (Gives.times gives_readTag n).bind fun tags htags => Gives.pure ⟨?_, htags.2⟩
    rw [htags.1]
    exact hn
  rw [indexKeyToTags] at h
  cases hread : readSeries src with
  | error e =>
    rw [hread] at h
    cases h
  | ok x =>
    rw [hread] at h
    cases h
    exact hseries src x.1 x.2 hread

/-- A batch of rows on its way to the store. -/
structure Batch where
  rows : List Row
  sound : ∀ r ∈ rows, r.Sound

namespace Batch

/-- The batch is written, and read back into the old rows and pools with nothing lost. -/
def Survives (b : Batch) (rows : Slice Row) (pools : Pools) : Prop :=
  ∃ bs rows' pools', fastMarshalMultiRows [] b.rows = .ok bs ∧
    fastUnmarshalMultiRows bs rows pools = .ok (rows', pools') ∧ List.Forall₂ Row.Survives b.rows rows'

/-- All lengths fit into the bytes they are written in, and the old index options take the lists. -/
structure Safe (b : Batch) (pools : Pools) : Prop where
  rowN : b.rows.length < 2 ^ 32
  fits : ∀ r ∈ b.rows, r.Fits
  takes : TakesEach pools.indexOptions.spare (b.rows.flatMap fun r => listLens r.indexOptions)

variable (b : Batch) (rows : Slice Row) (pools : Pools)

theorem fastMarshalMultiRows_eq : fastMarshalMultiRows [] b.rows =
    .ok (beBytes 4 b.rows.length ++ [messageVersion] ++ b.rows.flatMap Row.bytes) := by
  exact foldlM_fastMarshalBinary b.sound _

/-- A batch survives exactly if its bytes are read back into its rows. -/
theorem survives_iff_read : b.Survives rows pools ↔ ∃ rows' pools',
    unmarshalEach (rowsFor rows (b.rows.length % 2 ^ 32)).items pools (b.rows.flatMap Row.bytes) =
      .ok (rows', pools') ∧ List.Forall₂ Row.Survives b.rows rows' := by
  constructor
  · rintro ⟨bs, rows', pools', hbs, hread, hall⟩
    rw [fastMarshalMultiRows_eq] at hbs
    cases hbs
    rw [fastUnmarshalMultiRows_eq] at hread
    exact ⟨rows', pools', hread, hall⟩
  · rintro ⟨rows', pools', hread, hall⟩
    refine ⟨_, rows', pools', b.fastMarshalMultiRows_eq, ?_, hall⟩
    rw [fastUnmarshalMultiRows_eq]
    exact hread

/-- A row that survived fits: what was read is bounded, and the tags are those of an index key. -/
theorem fits_of_survives {r r' : Row} (h : r.Survives r') (hb : r'.Bounded) : r.Fits := by
  have htags := fits_of_indexKeyToTags h.indexKey
  have hlens := listLens_eq h.indexOptions
  exact {
    shardKey := fun hskip => by
      have hkey := h.shardKey
      rw [hskip, if_neg Bool.false_ne_true] at hkey
      exact hkey ▸ hb.shardKey
    tagN := htags.1
    tags := htags.2
    fieldN := h.fields.length_eq ▸ hb.fieldN
    fields := fun f hf => by
      obtain ⟨f', hf', hsame⟩ := exists_of_mem_right h.fields.flip hf
      exact Field.Same.fits hsame (hb.fields f' hf')
    indexN := h.indexOptions.length_eq ▸ hb.indexN
    indexLists := hlens ▸ hb.indexLists }

/-- **A batch survives the write path exactly if** its lengths fit and the old index options take its lists. -/
theorem survives_iff_safe : b.Survives rows pools ↔ b.Safe pools := by
  rw [survives_iff_read]
  constructor
  · rintro ⟨rows', pools', hread, hall⟩
    obtain ⟨hlen, hbounded, htakes⟩ := unmarshalEach_ok hread
    have hlens : (b.rows.flatMap fun r => listLens r.indexOptions) =
        rows'.flatMap fun r => listLens r.indexOptions := by
      have hmap := map_eq_of_forall₂ hall fun r _ r' h => (listLens_eq h.indexOptions).symm
      rw [flatMap_def, flatMap_def, hmap]
    rw [length_rowsFor] at hlen
    exact {
      rowN := by
        rw [hall.length_eq, hlen]
        exact Nat.mod_lt _ (Nat.two_pow_pos 32)
      fits := fun r hr => by
        obtain ⟨r', hr', h⟩ := exists_of_mem_right hall.flip hr
        exact fits_of_survives h (hbounded r' hr')
      takes := hlens ▸ htakes }
  · intro h
    apply unmarshalEach_bytes _ b.sound h.fits h.takes
    rw [length_rowsFor, Nat.mod_eq_of_lt h.rowN]

/-- One row with an index option for two fields. -/
def optionBatch : Batch where
  rows := [⟨false, 5, [0x6d], [], [⟨[0x76], 1, [], .int⟩], [], [], [⟨⟨[1, 2], []⟩, 3⟩], false⟩]
  sound := by
    intro r hr
    cases mem_singleton.mp hr
    exact ⟨by decide, by decide, by decide, by decide⟩

/-- The pools after a batch whose only index option was cut to one field, emptied for the next batch. -/
def leftoverPools : Pools := ⟨⟨[], []⟩, ⟨[], []⟩, ⟨[], [⟨⟨[7], [0]⟩, 3⟩]⟩, ⟨[], []⟩⟩

/-- The old list has one entry and storage for two: nothing is added to it, and the second entry is set outside. -/
theorem leftover_list_panics : (fastMarshalMultiRows [] optionBatch.rows >>= fun bs =>
      Prod.fst <$> fastUnmarshalMultiRows bs ⟨[], []⟩ leftoverPools) = .error .panic ∧
    ¬ optionBatch.Survives ⟨[], []⟩ leftoverPools := by
  have hpanic : (fastMarshalMultiRows [] optionBatch.rows >>= fun bs =>
      Prod.fst <$> fastUnmarshalMultiRows bs ⟨[], []⟩ leftoverPools) = .error .panic := by decide +kernel
  refine ⟨hpanic, ?_⟩
  rintro ⟨bs, rows', pools', hbs, hread, -⟩
  rw [hbs] at hpanic
  change Prod.fst <$> fastUnmarshalMultiRows bs ⟨[], []⟩ leftoverPools = .error .panic at hpanic
  rw [hread] at hpanic
  cases hpanic

end Batch

end GeminiTS.Line
