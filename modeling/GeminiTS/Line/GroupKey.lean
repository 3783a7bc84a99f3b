import GeminiTS.Line.IndexKey

/-!
# GroupKey — the groups of series of a query

Series are put into groups by the tags the query names, its dimensions. The key of a group is computed from the index
key of a series (`engine/index/tsi/mergeset_index.go`): the texts of the grouped tags, in the order of the dimensions,
with zero bytes between them.

* `GroupedPair` — two series and the dimensions; `GroupedPair.same_group_iff` — when they are in one group exactly
  if they agree on the dimensions; `GroupedPair.split_group` — they agree and are not in one group.
-/

namespace GeminiTS.Line

open Lib List

/-! ### The key of a group -/

/-- The position of a dimension in the query; a name has its last position. -/
def genDimensionPosition (dims : List Bytes) (dim : Bytes) : ℕ :=
  ((dims.zipIdx.reverse.find? (·.1 = dim)).map Prod.snd).getD 0

/-- The loop of `MakeGroupTagsKey`: it ends with the dimensions or with the tags. -/
def mergeDims (dimPos : Bytes → ℕ) : List Bytes → PointTags → List Bytes → List Bytes
  | [], _, result => result
  | _ :: _, [], result => result
  | d :: dims, t :: tags, result =>
    if d < t.key then mergeDims dimPos dims (t :: tags) (result.set (dimPos d) (d ++ [0] ++ [0]))
    else if t.key < d then mergeDims dimPos (d :: dims) tags result
    else mergeDims dimPos dims tags (result.set (dimPos d) (d ++ [0] ++ t.value ++ [0]))
termination_by dims tags => dims.length + tags.length

def makeGroupTagsKey (dims : List Bytes) (tags : PointTags) (dimPos : Bytes → ℕ) : Bytes :=
  if dims.length = 0 ∨ tags.length = 0 then []
  else
    let dst := (mergeDims dimPos dims tags (replicate dims.length [])).flatten
    if dst.length > 1 then dst.dropLast else dst

/-- The key of the group of a series. -/
def groupKey (dimensions : List Bytes) (src : Bytes) : Except KeyError Bytes := do
  let dims := dimensions.mergeSort
  let parsed ← parse2SeriesGroupKey src dimensions
  if dims.length > 0 then
    if parsed.groupByAllSortedTag then return parsed.seriesKey.drop (parsed.nameLen + 1)
    else return makeGroupTagsKey dims parsed.tags (genDimensionPosition dimensions)
  else return []

/-! ### Entries -/

/-- The value of a tag. -/
def tagValue (tags : PointTags) (dim : Bytes) : Option Bytes := (tags.find? (·.key = dim)).map Tag.value

/-- What is written for a dimension: a missing one is written only if a tag with a greater key follows. -/
def entry (tags : PointTags) (dim : Bytes) : Bytes :=
  match tagValue tags dim with
  | some v => dim ++ [0] ++ v ++ [0]
  | none => if tags.any (dim < ·.key) then dim ++ [0] ++ [0] else []

variable {tags : PointTags} {dims : List Bytes} {f : Bytes → Bytes}

variable {t : Tag} {dimensions : List Bytes} {g : Bytes → Bytes} {d x : Bytes}

theorem tagValue_cons_of_ne (h : t.key ≠ d) : tagValue (t :: tags) d = tagValue tags d := by
  rw [tagValue, find?_cons_of_neg (by simpa using h)]
  rfl

theorem tagValue_cons_self (t : Tag) (tags : PointTags) : tagValue (t :: tags) t.key = some t.value := by
  rw [tagValue, find?_cons_of_pos (by simp)]
  rfl

theorem tagValue_of_lt (h : ∀ t ∈ tags, d < t.key) : tagValue tags d = none := by
  rw [tagValue, find?_eq_none.mpr, Option.map_none]
  intro t ht
  simpa using (h t ht).ne'

theorem entry_cons_of_lt (h : t.key < d) : entry (t :: tags) d = entry tags d := by
  rw [entry, entry, tagValue_cons_of_ne h.ne, any_cons, decide_eq_false h.asymm, Bool.false_or]

theorem getElem?_mergeDims_of_ne {dimPos : Bytes → ℕ} {p : ℕ} (tags : PointTags)
    (result : List Bytes) (h : ∀ d ∈ dims, dimPos d ≠ p) : (mergeDims dimPos dims tags result)[p]? = result[p]? := by
  fun_induction mergeDims dimPos dims tags result with
  | case1 tags result | case2 d dims result => rfl
  | case3 d dims t tags result hlt ih | case5 d dims t tags result hlt hgt ih =>
    rw [ih fun d' hd' => h d' (mem_cons_of_mem _ hd'), getElem?_set_ne (h d mem_cons_self)]
  | case4 d dims t tags result hlt hgt ih => exact ih h

section Merge

variable {dimPos : Bytes → ℕ} {d : Bytes} {dims : List Bytes} {result : List Bytes}

/-- The places of the dimensions behind a dimension are not its own. -/
theorem dimPos_ne (hdims : (d :: dims).Pairwise (· < ·))
    (hinj : ∀ a ∈ d :: dims, ∀ b ∈ d :: dims, dimPos a = dimPos b → a = b) :
    ∀ d' ∈ dims, dimPos d' ≠ dimPos d := by
  intro d' hd' he
  have hlt := (pairwise_cons.mp hdims).1 d' hd'
  exact hlt.ne (hinj d' (mem_cons_of_mem _ hd') d mem_cons_self he).symm

theorem set_empty (hne : ∀ d' ∈ dims, dimPos d' ≠ dimPos d) (hempty : ∀ d' ∈ d :: dims, result[dimPos d']? = some [])
    (text : Bytes) : ∀ d' ∈ dims, (result.set (dimPos d) text)[dimPos d']? = some [] := by
  intro d' hd'
  rw [getElem?_set_ne (hne d' hd').symm]
  exact hempty d' (mem_cons_of_mem _ hd')

theorem getElem?_mergeDims_set (hne : ∀ d' ∈ dims, dimPos d' ≠ dimPos d) (hempty : result[dimPos d]? = some [])
    (tags : PointTags) (text : Bytes) :
    (mergeDims dimPos dims tags (result.set (dimPos d) text))[dimPos d]? = some text := by
  rw [getElem?_mergeDims_of_ne _ _ hne, getElem?_set_self]
  exact (List.getElem?_eq_some_iff.mp hempty).1

theorem getElem?_mergeDims {tags : PointTags} (hdims : dims.Pairwise (· < ·))
    (htags : (tags.map Tag.key).Pairwise (· < ·)) (hinj : ∀ a ∈ dims, ∀ b ∈ dims, dimPos a = dimPos b → a = b)
    (hempty : ∀ d' ∈ dims, result[dimPos d']? = some []) (hd : d ∈ dims) :
    (mergeDims dimPos dims tags result)[dimPos d]? = some (entry tags d) := by
  fun_induction mergeDims dimPos dims tags result with
  | case1 tags result => exact absurd hd not_mem_nil
  | case2 d' dims result => exact hempty d hd
  | case3 d' dims t tags result hlt ih =>
    -- The dimension is before all tags that are left.
    have hne := dimPos_ne hdims hinj
    rcases mem_cons.mp hd with rfl | hd
    · have hkeys : ∀ t' ∈ t :: tags, d < t'.key := by
        intro t' ht'
        rcases mem_cons.mp ht' with rfl | ht'
        · exact hlt
        · exact hlt.trans ((pairwise_cons.mp htags).1 t'.key (mem_map_of_mem ht'))
      rw [getElem?_mergeDims_set hne (hempty d mem_cons_self), entry, tagValue_of_lt hkeys, any_cons,
        decide_eq_true hlt]
      rfl
    · exact ih hdims.of_cons htags
        (fun a ha b hb => hinj a (mem_cons_of_mem _ ha) b (mem_cons_of_mem _ hb)) (set_empty hne hempty _) hd
  | case4 d' dims t tags result hlt hgt ih =>
    -- The tag is before all dimensions that are left.
    have htd : t.key < d := by
      rcases mem_cons.mp hd with rfl | hd
      · exact hgt
      · exact hgt.trans ((pairwise_cons.mp hdims).1 d hd)
    rw [ih hdims htags.of_cons hinj hempty hd, entry_cons_of_lt htd]
  | case5 d' dims t tags result hlt hgt ih =>
    have hkey : t.key = d' := le_antisymm (not_lt.mp hlt) (not_lt.mp hgt)
    have hne := dimPos_ne hdims hinj
    rcases mem_cons.mp hd with rfl | hd
    · rw [getElem?_mergeDims_set hne (hempty d mem_cons_self), entry, ← hkey, tagValue_cons_self]
    · have htd : t.key < d := hkey ▸ (pairwise_cons.mp hdims).1 d hd
      rw [ih hdims.of_cons htags.of_cons
        (fun a ha b hb => hinj a (mem_cons_of_mem _ ha) b (mem_cons_of_mem _ hb)) (set_empty hne hempty _) hd,
        entry_cons_of_lt htd]

end Merge

/-! ### Keys made of entries -/

theorem genDimensionPosition_getElem (hnd : dims.Nodup) {i : ℕ} (hi : i < dims.length) :
    genDimensionPosition dims dims[i] = i := by
  have hmem : (dims[i], i) ∈ dims.zipIdx.reverse :=
    mem_reverse.mpr (mem_zipIdx_iff_getElem?.mpr (getElem?_eq_getElem hi))
  obtain ⟨r, hr⟩ : ∃ r, dims.zipIdx.reverse.find? (fun p => decide (p.1 = dims[i])) = some r :=
    Option.isSome_iff_exists.mp (find?_isSome.mpr ⟨_, hmem, decide_eq_true rfl⟩)
  have hrmem := mem_zipIdx_iff_getElem?.mp (mem_reverse.mp (mem_of_find?_eq_some hr))
  have hr1 : r.1 = dims[i] := by simpa using find?_some hr
  obtain ⟨hlt, hr2⟩ := List.getElem?_eq_some_iff.mp hrmem
  have heq : r.2 = i := (List.Nodup.getElem_inj_iff hnd).mp (hr2.trans hr1)
  rw [genDimensionPosition, hr]
  exact heq

theorem length_mergeDims (dimPos : Bytes → ℕ) (dims : List Bytes) (tags : PointTags) (result : List Bytes) :
    (mergeDims dimPos dims tags result).length = result.length := by
  fun_induction mergeDims dimPos dims tags result with
  | case1 tags result | case2 d dims result => rfl
  | case3 d dims t tags result hlt ih | case5 d dims t tags result hlt hgt ih => rw [ih, length_set]
  | case4 d dims t tags result hlt hgt ih => exact ih

/-- The merge of all dimensions gives the entries in the order of the query. -/
theorem mergeDims_eq_map (hnd : dimensions.Nodup) (htags : (tags.map Tag.key).Pairwise (· < ·)) :
    mergeDims (genDimensionPosition dimensions) dimensions.mergeSort tags
      (replicate dimensions.mergeSort.length []) = dimensions.map (entry tags) := by
  have hperm : dimensions.mergeSort.Perm dimensions := mergeSort_perm _ _
  have hsorted : dimensions.mergeSort.Pairwise (· < ·) :=
    ((pairwise_mergeSort' (· ≤ ·) dimensions).and (hperm.nodup_iff.mpr hnd)).imp fun h => lt_of_le_of_ne h.1 h.2
  have hpos {d : Bytes} (hd : d ∈ dimensions.mergeSort) : ∃ i, ∃ hi : i < dimensions.length, d = dimensions[i] ∧
      genDimensionPosition dimensions d = i := by
    obtain ⟨i, hi, rfl⟩ := getElem_of_mem (hperm.mem_iff.mp hd)
    exact ⟨i, hi, rfl, genDimensionPosition_getElem hnd hi⟩
  have hinj : ∀ a ∈ dimensions.mergeSort, ∀ b ∈ dimensions.mergeSort,
      genDimensionPosition dimensions a = genDimensionPosition dimensions b → a = b := by
    intro a ha b hb h
    obtain ⟨i, hi, rfl, hai⟩ := hpos ha
    obtain ⟨j, hj, rfl, hbj⟩ := hpos hb
    obtain rfl : i = j := hai.symm.trans (h.trans hbj)
    rfl
  have hempty : ∀ d ∈ dimensions.mergeSort, (replicate dimensions.mergeSort.length
      ([] : Bytes))[genDimensionPosition dimensions d]? = some [] := by
    intro d hd
    obtain ⟨i, hi, rfl, hdi⟩ := hpos hd
    rw [hdi, getElem?_replicate, if_pos (by rwa [hperm.length_eq])]
  apply ext_getElem?
  intro i
  by_cases hi : i < dimensions.length
  · have hd := hperm.mem_iff.mpr (getElem_mem hi)
    have h := getElem?_mergeDims hsorted htags hinj hempty hd
    rw [genDimensionPosition_getElem hnd hi] at h
    rw [h, getElem?_map, getElem?_eq_getElem hi, Option.map_some]
  · rw [getElem?_eq_none (by rw [length_mergeDims, length_replicate, hperm.length_eq]; omega),
      getElem?_eq_none (by rw [length_map]; omega)]

/-- Nothing is written for a dimension, or its name and a value, each with a zero byte behind it. -/
def IsEntry (d text : Bytes) : Prop := text = [] ∨ ∃ v, 0 ∉ v ∧ text = d ++ 0 :: (v ++ [0])

theorem entry_form (htags : ∀ t ∈ tags, 0 ∉ t.value) (d : Bytes) : IsEntry d (entry tags d) := by
  rw [entry]
  cases hv : tagValue tags d with
  | some v =>
    obtain ⟨t, ht, rfl⟩ := Option.map_eq_some_iff.mp hv
    exact .inr ⟨t.value, htags t (mem_of_find?_eq_some ht), by simp⟩
  | none =>
    show (if _ then _ else _) = [] ∨ _
    split_ifs with hany
    · exact .inr ⟨[], not_mem_nil, by simp⟩
    · exact .inl rfl

/-- The text of the entries without its last byte. -/
def keyOf (dims : List Bytes) (tags : PointTags) : Bytes := (dims.flatMap (entry tags)).dropLast

theorem makeGroupTagsKey_eq (hnd : dimensions.Nodup) (htags : (tags.map Tag.key).Pairwise (· < ·))
    (hvalues : ∀ t ∈ tags, 0 ∉ t.value) :
    makeGroupTagsKey dimensions.mergeSort tags (genDimensionPosition dimensions) = keyOf dimensions tags := by
  have hlen : dimensions.mergeSort.length = dimensions.length := (mergeSort_perm _ _).length_eq
  unfold makeGroupTagsKey keyOf
  by_cases h0 : dimensions.mergeSort.length = 0 ∨ tags.length = 0
  · rw [if_pos h0]
    rcases h0 with h0 | h0
    · rw [hlen, length_eq_zero_iff] at h0
      rw [h0]
      rfl
    · rw [length_eq_zero_iff] at h0
      have hnil : dimensions.flatMap (entry tags) = [] := flatMap_eq_nil_iff.mpr fun d _ => by rw [h0]; rfl
      rw [hnil]
      rfl
  · rw [if_neg h0, mergeDims_eq_map hnd htags, ← flatMap_def]
    show (if _ then _ else _) = _
    split_ifs with h1
    · rfl
    · -- An entry that is not empty has two bytes.
      have hnil : dimensions.flatMap (entry tags) = [] := by
        refine flatMap_eq_nil_iff.mpr fun d hd => (entry_form hvalues d).resolve_right ?_
        rintro ⟨v, -, hv⟩
        have hle : (entry tags d).length ≤ (dimensions.flatMap (entry tags)).length := by
          exact (sublist_flatten_of_mem (mem_map_of_mem hd)).length_le
        rw [hv, length_append, length_cons, length_append, length_singleton] at hle
        omega
      rw [hnil]
      rfl

/-! ### The entries of a key -/

theorem append_zero_inj {a b y : Bytes} (ha : 0 ∉ a) (hb : 0 ∉ b) (h : a ++ 0 :: x = b ++ 0 :: y) : a = b ∧ x = y := by
  induction a generalizing b with
  | nil =>
    cases b with
    | nil => exact ⟨rfl, (cons.inj h).2⟩
    | cons c b => exact absurd ((cons.inj h).1 ▸ mem_cons_self) hb
  | cons c a ih =>
    cases b with
    | nil => exact absurd ((cons.inj h).1 ▸ mem_cons_self) ha
    | cons c' b =>
      obtain ⟨rfl, hrest⟩ := cons.inj h
      obtain ⟨rfl, hxy⟩ := ih (mt (mem_cons_of_mem c) ha) (mt (mem_cons_of_mem c) hb) hrest
      exact ⟨rfl, hxy⟩

/-- No text of entries starts with the name of another dimension. -/
theorem flatMap_entry_ne (hd : d ∉ dims) (hd0 : 0 ∉ d) (h0 : ∀ d' ∈ dims, 0 ∉ d')
    (hf : ∀ d' ∈ dims, IsEntry d' (f d')) :
    dims.flatMap f ≠ d ++ 0 :: x := by
  induction dims with
  | nil => simp
  | cons d' dims ih =>
    rw [flatMap_cons]
    rcases hf d' mem_cons_self with hnil | ⟨v, -, hv⟩
    · rw [hnil]
      exact ih (mt (mem_cons_of_mem d') hd) (forall_mem_cons.mp h0).2 fun c hc => hf c (mem_cons_of_mem _ hc)
    · intro he
      rw [hv, append_assoc] at he
      have hdd := (append_zero_inj (h0 d' mem_cons_self) hd0 he).1
      exact hd (hdd ▸ mem_cons_self)

theorem flatMap_entry_inj (hnd : dims.Nodup) (h0 : ∀ d ∈ dims, 0 ∉ d) (hf : ∀ d ∈ dims, IsEntry d (f d))
    (hg : ∀ d ∈ dims, IsEntry d (g d)) (h : dims.flatMap f = dims.flatMap g) : ∀ d ∈ dims, f d = g d := by
  induction dims with
  | nil => exact fun d hd => absurd hd not_mem_nil
  | cons d dims ih =>
    obtain ⟨hd, hnd⟩ := nodup_cons.mp hnd
    have hd0 := h0 d mem_cons_self
    have h0' : ∀ c ∈ dims, 0 ∉ c := fun c hc => h0 c (mem_cons_of_mem _ hc)
    have hf' : ∀ c ∈ dims, IsEntry c (f c) := fun c hc => hf c (mem_cons_of_mem _ hc)
    have hg' : ∀ c ∈ dims, IsEntry c (g c) := fun c hc => hg c (mem_cons_of_mem _ hc)
    rw [flatMap_cons, flatMap_cons] at h
    have hhead : f d = g d ∧ dims.flatMap f = dims.flatMap g := by
      rcases hf d mem_cons_self with hfn | ⟨v, hv0, hv⟩ <;> rcases hg d mem_cons_self with hgn | ⟨w, hw0, hw⟩
      · rw [hfn, hgn] at h ⊢
        exact ⟨rfl, h⟩
      · rw [hfn, hw, append_assoc] at h
        exact absurd h (flatMap_entry_ne hd hd0 h0' hf')
      · rw [hgn, hv, append_assoc] at h
        exact absurd h.symm (flatMap_entry_ne hd hd0 h0' hg')
      · rw [hv, hw, append_assoc, append_assoc, cons_append, cons_append, append_assoc, append_assoc] at h
        obtain ⟨-, hrest⟩ := append_zero_inj hd0 hd0 h
        obtain ⟨hvw, htail⟩ := append_zero_inj hv0 hw0 hrest
        exact ⟨by rw [hv, hw, hvw], htail⟩
    intro c hc
    rcases mem_cons.mp hc with rfl | hc
    · exact hhead.1
    · exact ih hnd h0' hf' hg' hhead.2 c hc

theorem flatMap_entry_end (hf : ∀ d ∈ dims, IsEntry d (f d)) :
    dims.flatMap f = [] ∨ ∃ x, x ≠ [] ∧ dims.flatMap f = x ++ [0] := by
  induction dims with
  | nil => exact .inl rfl
  | cons d dims ih =>
    rw [flatMap_cons]
    rcases ih fun c hc => hf c (mem_cons_of_mem _ hc) with hnil | ⟨x, hx, he⟩
    · rw [hnil, append_nil]
      refine (hf d mem_cons_self).imp id ?_
      rintro ⟨v, -, hv⟩
      exact ⟨d ++ 0 :: v, by simp, by rw [hv]; simp⟩
    · exact .inr ⟨f d ++ x, by simp [hx], by rw [he, append_assoc]⟩

theorem dropLast_entry_inj (hf : ∀ d ∈ dims, IsEntry d (f d)) (hg : ∀ d ∈ dims, IsEntry d (g d))
    (h : (dims.flatMap f).dropLast = (dims.flatMap g).dropLast) : dims.flatMap f = dims.flatMap g := by
  rcases flatMap_entry_end hf with hfn | ⟨x, hx, hfx⟩ <;> rcases flatMap_entry_end hg with hgn | ⟨y, hy, hgy⟩
  · rw [hfn, hgn]
  · rw [hfn, hgy, dropLast_concat] at h
    exact absurd h.symm hy
  · rw [hgn, hfx, dropLast_concat] at h
    exact absurd h hx
  · rw [hfx, hgy, dropLast_concat, dropLast_concat] at h
    rw [hfx, hgy, h]

/-! ### Series -/

/-- A series of the index: a key that is read as a name and tags. -/
structure Series where
  key : Bytes
  name : Bytes
  tags : PointTags
  rest : Bytes
  decoded : readSeries key = .ok ((name, tags), rest)
  sorted : (tags.map Tag.key).Pairwise (· < ·)
  value_ne : ∀ t ∈ tags, t.value ≠ []
  noNul : ∀ t ∈ tags, 0 ∉ t.key ∧ 0 ∉ t.value

namespace Series

variable (s : Series)

theorem isEntry (d : Bytes) : IsEntry d (entry s.tags d) := entry_form (fun t ht => (s.noNul t ht).2) d

theorem tagValue_of_mem {t : Tag} (ht : t ∈ s.tags) : tagValue s.tags t.key = some t.value := by
  obtain ⟨r, hr⟩ : ∃ r, s.tags.find? (fun p => decide (p.key = t.key)) = some r :=
    Option.isSome_iff_exists.mp (find?_isSome.mpr ⟨t, ht, decide_eq_true rfl⟩)
  have hkey : r.key = t.key := by simpa using find?_some hr
  have hinj := inj_on_of_nodup_map (s.sorted.imp fun h => h.ne)
  rw [tagValue, hr, hinj (mem_of_find?_eq_some hr) ht hkey]
  rfl

/-- If all tags are grouped in order, their texts are the entries. -/
theorem flatMap_tagText : s.tags.flatMap tagText = (s.tags.map Tag.key).flatMap (entry s.tags) := by
  rw [flatMap_map]
  refine flatMap_congr fun t ht => ?_
  rw [entry, s.tagValue_of_mem ht]
  rfl

/-- **The key of the group of a series is made of the entries of the dimensions**, on both paths. -/
theorem groupKey_eq {dimensions : List Bytes} (hnd : dimensions.Nodup) :
    groupKey dimensions s.key = .ok (keyOf dimensions s.tags) := by
  have hlen : dimensions.mergeSort.length = dimensions.length := (mergeSort_perm _ _).length_eq
  unfold groupKey parse2SeriesGroupKey
  rw [s.decoded]
  show (if _ then (if _ then _ else _) else _) = _
  split_ifs with h0 hall
  · obtain ⟨-, hdims⟩ : dimensions.length = s.tags.length ∧ dimensions = s.tags.map Tag.key := by simpa using hall
    have hne : s.tags.flatMap tagText ≠ [] := by
      obtain ⟨t, tags, htags⟩ := exists_cons_of_ne_nil (l := s.tags) (by
        rintro hnil
        rw [hdims, hnil] at h0
        exact absurd h0 (by simp))
      rw [htags]
      simp [tagText]
    show Except.ok (((s.name ++ [0x2c] ++ s.tags.flatMap tagText).dropLast).drop (s.name.length + 1)) = _
    rw [dropLast_append_of_ne_nil hne, drop_left' (by simp), s.flatMap_tagText, ← hdims]
    rfl
  · exact congrArg Except.ok (makeGroupTagsKey_eq hnd s.sorted fun t ht => (s.noNul t ht).2)
  · have hnil : dimensions = [] := length_eq_zero_iff.mp (by omega)
    rw [hnil]
    rfl

end Series

/-! ### Two series -/

/-- Two series of a measurement and the dimensions of a query. -/
structure GroupedPair where
  dimensions : List Bytes
  a : Series
  b : Series
  nodup : dimensions.Nodup
  noNul : ∀ d ∈ dimensions, 0 ∉ d
  name : a.name = b.name

namespace GroupedPair

variable (q : GroupedPair)

/-- The keys of the groups are equal. -/
def SameGroup : Prop := ∃ k, groupKey q.dimensions q.a.key = .ok k ∧ groupKey q.dimensions q.b.key = .ok k

/-- Every dimension is missing from both series or has the same value in both. -/
def Agree : Prop := ∀ d ∈ q.dimensions, tagValue q.a.tags d = tagValue q.b.tags d

/-- If the series agree, a dimension they miss has a tag with a greater key behind it in both of them or in none. -/
def Aligned : Prop := q.Agree → ∀ d ∈ q.dimensions, tagValue q.a.tags d = none →
    ((∃ t ∈ q.a.tags, d < t.key) ↔ ∃ t ∈ q.b.tags, d < t.key)

variable {q}

theorem sameGroup_iff_entries : q.SameGroup ↔ ∀ d ∈ q.dimensions, entry q.a.tags d = entry q.b.tags d := by
  have ha := q.a.groupKey_eq q.nodup
  have hb := q.b.groupKey_eq q.nodup
  constructor
  · rintro ⟨k, hka, hkb⟩
    have hkey : keyOf q.dimensions q.a.tags = keyOf q.dimensions q.b.tags :=
      Except.ok.inj (ha.symm.trans (hka.trans (hkb.symm.trans hb)))
    have hia : ∀ d ∈ q.dimensions, IsEntry d (entry q.a.tags d) := fun d _ => q.a.isEntry d
    have hib : ∀ d ∈ q.dimensions, IsEntry d (entry q.b.tags d) := fun d _ => q.b.isEntry d
    exact flatMap_entry_inj q.nodup q.noNul hia hib (dropLast_entry_inj hia hib hkey)
  · intro h
    refine ⟨_, ha, ?_⟩
    rw [hb, keyOf, keyOf, flatMap_congr h]

/-- Equal entries of a dimension: equal values, and both are written or none. -/
theorem entry_eq_iff (a b : Series) (d : Bytes) : entry a.tags d = entry b.tags d ↔
    tagValue a.tags d = tagValue b.tags d ∧
      (tagValue a.tags d = none → ((∃ t ∈ a.tags, d < t.key) ↔ ∃ t ∈ b.tags, d < t.key)) := by
  have hne (s : Series) {v : Bytes} (hv : tagValue s.tags d = some v) : v ≠ [] := by
    obtain ⟨t, ht, rfl⟩ := Option.map_eq_some_iff.mp hv
    exact s.value_ne t (mem_of_find?_eq_some ht)
  have hany (s : Series) : s.tags.any (fun t => decide (d < t.key)) = true ↔ ∃ t ∈ s.tags, d < t.key := by simp
  rw [entry, entry]
  cases hva : tagValue a.tags d with
  | some v =>
    cases hvb : tagValue b.tags d with
    | some w => simp
    | none =>
      have hv := hne a hva
      show _ = (if _ then _ else _) ↔ _
      split_ifs <;> simp [hv]
  | none =>
    cases hvb : tagValue b.tags d with
    | some w =>
      have hw := hne b hvb
      show (if _ then _ else _) = _ ↔ _
      split_ifs <;> simp [hw]
    | none =>
      simp only [← hany]
      cases a.tags.any (fun t => decide (d < t.key)) <;> cases b.tags.any (fun t => decide (d < t.key)) <;> simp

/-- **Two series are in one group exactly if they agree on the dimensions** — this holds for two series and
dimensions if and only if they are aligned. -/
theorem same_group_iff (q : GroupedPair) : (q.SameGroup ↔ q.Agree) ↔ q.Aligned := by
  rw [sameGroup_iff_entries]
  constructor
  · intro h hagree d hd
    exact ((entry_eq_iff q.a q.b d).mp (h.mpr hagree d hd)).2
  · intro h
    constructor
    · exact fun he d hd => ((entry_eq_iff q.a q.b d).mp (he d hd)).1
    · exact fun hagree d hd => (entry_eq_iff q.a q.b d).mpr ⟨hagree d hd, h hagree d hd⟩

/-- The series with these tags, from the key that is written for it. -/
def writtenSeries (tags : PointTags) (hn : tags.length < 2 ^ 16) (htags : ∀ tag ∈ tags, tag.Fits)
    (sorted : (tags.map Tag.key).Pairwise (· < ·)) (value_ne : ∀ t ∈ tags, t.value ≠ [])
    (noNul : ∀ t ∈ tags, 0 ∉ t.key ∧ 0 ∉ t.value) : Series where
  key := unmarshalIndexKeys [0x6d] tags
  name := [0x6d]
  tags := tags
  rest := []
  decoded := readSeries_unmarshalIndexKeys (by decide) hn htags
  sorted := sorted
  value_ne := value_ne
  noNul := noNul

/-- The series `m,a=1` and `m,a=1,c=1`, grouped by `a` and `b`. -/
def otherTag : GroupedPair where
  dimensions := [[0x61], [0x62]]
  a := writtenSeries [⟨[0x61], [0x31]⟩] (by decide) (by simp [Tag.Fits]) (by decide) (by decide) (by decide)
  b := writtenSeries [⟨[0x61], [0x31]⟩, ⟨[0x63], [0x31]⟩] (by decide) (by simp [Tag.Fits]) (by decide) (by decide)
    (by decide)
  nodup := by decide
  noNul := by decide
  name := rfl

/-- **Two series that agree are put into two groups**: `b` is missing from both, and the tag `c`, which is not
grouped, decides whether this is written into the key. -/
theorem split_group : ¬ (otherTag.SameGroup ↔ otherTag.Agree) := by
  rw [sameGroup_iff_entries]
  intro h
  have hagree : otherTag.Agree := by
    unfold Agree
    decide +kernel
  have hentry := h.mpr hagree [0x62] (by decide)
  exact absurd hentry (by decide +kernel)

end GroupedPair

end GeminiTS.Line
