import GeminiTS.Lib.GrowingRange
import GeminiTS.Text.Items

/-!
# Search — looking up words and phrases

The searches of the text index (`engine/index/clv/index.go`, `search.go`). The items under a group of words are merged
into one result; the numbers found in them stand for longer groups that end in the words, and are resolved while the
set of numbers grows.
-/

namespace GeminiTS.Text

open Lib List

/-! ### Reading the table -/

/-- The items that begin with a key. -/
abbrev Table := Bytes → List Bytes

/-- A table that returns the items that were added. -/
def itemTable (items : List Item) : Table := fun kb => (items.map fun x => marshal x.1 x.2).filter (kb <+: ·)

/-- A posting that is read with an offset. Positions are 16-bit numbers. -/
def InvertState.shift (offset : ℕ) (is : InvertState) : InvertState := ⟨is.rowId, (is.position + offset) % 2 ^ 16⟩

/-- Add what an item holds, with an offset, to a result. -/
def InvertIndex.merge (ii : InvertIndex) (offset : ℕ) (c : Content) : InvertIndex := c.ids.foldl InvertIndex.AddId
    (c.invertStates.foldl (fun ii s => ii.Append s.1 (s.2.map (InvertState.shift offset))) ii)

/-- `unmarshal` into a result. -/
def InvertIndex.unmarshal (ii : InvertIndex) (offset : ℕ) (item : Bytes) : InvertIndex :=
  match Text.unmarshal item with
  | .ok c => ii.merge offset c
  -- a panic; the results are about items that are read
  | .error _ => ii

def searchInvertIndexByVtoken (T : Table) (vtoken : Bytes) (ii : InvertIndex) (offset : ℕ) : InvertIndex :=
  (T (0 :: vtoken ++ [txSuffix])).foldl (fun ii item => ii.unmarshal offset item) ii

def searchInvertIndexByPrefixVtoken (T : Table) (vtoken : Bytes) (ii : InvertIndex) (offset : ℕ) : InvertIndex :=
  (T (0 :: vtoken)).foldl (fun ii item => ii.unmarshal offset item) ii

def searchInvertByVtoken (T : Table) (tokens : List Bytes) : InvertIndex :=
  searchInvertIndexByVtoken T (vtoken tokens) NewInvertIndex 0

def searchInvertByPrefixVtoken (T : Table) (tokens : List Bytes) : InvertIndex :=
  searchInvertIndexByPrefixVtoken T (vtoken tokens) NewInvertIndex 0

/-- The body of the loops over the numbers. -/
def visitId (a : Analyzer) (T : Table) (assyId : ℕ) (ii : InvertIndex) : InvertIndex :=
  let v := findVtokenByID a (disassembleId assyId).1
  if v = [] then ii else searchInvertIndexByVtoken T v ii (disassembleId assyId).2

/-- The loops over the numbers of a result, which grow meanwhile. -/
def ResolvesIds (a : Analyzer) (T : Table) (ii r : InvertIndex) : Prop :=
  Ranges InvertIndex.ids (visitId a T) ii.ids [] ii r

/-- The results of `searchInvertByVtokenAndId`. -/
def SearchInvertByVtokenAndId (a : Analyzer) (T : Table) (tokens : List Bytes) (r : InvertIndex) : Prop :=
  ResolvesIds a T (searchInvertByVtoken T tokens) r

/-- The results of `searchInvertByPrefixVtokenAndId`. -/
def SearchInvertByPrefixVtokenAndId (a : Analyzer) (T : Table) (tokens : List Bytes) (r : InvertIndex) : Prop :=
  ResolvesIds a T (searchInvertByPrefixVtoken T tokens) r

/-! ### Intersection of postings -/

def InvertState.le (is is' : InvertState) : Bool :=
  is.rowId < is'.rowId || decide (is.rowId = is'.rowId) && decide (is.position ≤ is'.position)

/-- `InvertIsExisted`: a binary search. -/
def invertIsExisted (iss : List InvertState) (is : InvertState) : Bool :=
  decide (iss[sortSearch (fun i => iss[i]?.any is.le) 0 iss.length]? = some is)

/-- The postings of one series that have one of the other result at a distance. The shorter list is gone through. -/
def intersectStates (pre cur : List InvertState) (dis : ℕ) : List InvertState :=
  if pre.length > cur.length then
    (cur.filter fun is => dis ≤ is.position).filterMap fun is =>
      if invertIsExisted pre ⟨is.rowId, is.position - dis⟩ then some ⟨is.rowId, is.position - dis⟩ else none
  else pre.filter fun is => invertIsExisted cur ⟨is.rowId, (is.position + dis) % 2 ^ 16⟩

/-- The body of the loop over the series. -/
def intersectSeries (cur : InvertIndex) (dis : ℕ) (res : InvertIndex) (x : UInt64 × List InvertState) : InvertIndex :=
  match cur.invertStates.lookup x.1 with
  | none => res
  | some curIss => (intersectStates x.2 curIss dis).foldl (fun res is => res.AddInvertState x.1 is) res

def IntersectInvertByDistance (pre cur : InvertIndex) (dis : ℕ) : InvertIndex :=
  pre.invertStates.foldl (intersectSeries cur dis) NewInvertIndex

/-! ### Queries -/

/-- The loop of `MatchPhrase` behind the first group: the last group may be the beginning of a key. -/
def intersectGroups (T : Table) (sids : List UInt64) : List VToken → InvertIndex → InvertIndex
  | [], pre => pre
  | [v], pre => IntersectInvertByDistance pre ((searchInvertByPrefixVtoken T v.tokens).Sort sids) v.pos
  | v :: vs, pre =>
    intersectGroups T sids vs (IntersectInvertByDistance pre ((searchInvertByVtoken T v.tokens).Sort sids) v.pos)

/-- The results of `MatchPhrase`. -/
def MatchPhrase (a : Analyzer) (T : Table) (phrase : Log) (sids : List UInt64) (r : Option InvertIndex) : Prop :=
  match analyze a phrase with
  | [] => r = none
  | [v] => ∃ ii, SearchInvertByPrefixVtokenAndId a T v.tokens ii ∧ r = some (ii.Sort sids)
  | v :: vs => ∃ ii, SearchInvertByVtokenAndId a T v.tokens ii ∧ r = some (intersectGroups T sids vs (ii.Sort sids))

/-! ### What is read -/

variable {is : InvertState} {ii : InvertIndex} {sid : UInt64} {offset : ℕ}

theorem states_foldl_AddId (ids : List ℕ) (ii : InvertIndex) (sid : UInt64) :
    (ids.foldl InvertIndex.AddId ii).states sid = ii.states sid := by
  induction ids generalizing ii with
  | nil => rfl
  | cons n ids ih => rw [foldl_cons, ih, states_AddId]

theorem mem_states_merge {c : Content} :
    is ∈ (ii.merge offset c).states sid ↔ is ∈ ii.states sid ∨ ∃ is0, c.Has sid is0 ∧ is = is0.shift offset := by
  rw [InvertIndex.merge, states_foldl_AddId, foldl_iff_exists (P := fun ii : InvertIndex => is ∈ ii.states sid)
    (A := fun s => s.1 = sid ∧ is ∈ s.2.map (InvertState.shift offset))]
  · refine or_congr_right ⟨?_, ?_⟩
    · rintro ⟨⟨sid', iss⟩, hs, rfl, his⟩
      obtain ⟨is0, his0, rfl⟩ := mem_map.mp his
      exact ⟨is0, ⟨iss, hs, his0⟩, rfl⟩
    · rintro ⟨is0, ⟨iss, hs, his0⟩, rfl⟩
      exact ⟨(sid, iss), hs, rfl, mem_map_of_mem his0⟩
  · intro ii s
    rw [states_Append, mem_append]
    split_ifs with h
    · rw [and_iff_right h.symm]
    · exact ⟨fun h' => .inl (h'.resolve_right not_mem_nil), fun h' => .inl (h'.resolve_right fun h' => h h'.1.symm)⟩

theorem mem_ids_merge {c : Content} {n : ℕ} : n ∈ (ii.merge offset c).ids ↔ n ∈ ii.ids ∨ n ∈ c.ids := by
  have hids : (c.invertStates.foldl (fun ii s => ii.Append s.1 (s.2.map (InvertState.shift offset))) ii).ids = ii.ids :=
    foldlRecOn c.invertStates _ (motive := fun r : InvertIndex => r.ids = ii.ids) rfl fun r hr s _ => hr
  rw [InvertIndex.merge, foldl_iff_exists (P := fun ii : InvertIndex => n ∈ ii.ids) (A := fun i => n = i)
    fun ii i => mem_ids_AddId, hids]
  simp

theorem mem_states_foldl_unmarshal {l : List Bytes} :
    is ∈ (l.foldl (fun ii item => ii.unmarshal offset item) ii).states sid ↔ is ∈ ii.states sid ∨
      ∃ item ∈ l, ∃ c, unmarshal item = .ok c ∧ ∃ is0, c.Has sid is0 ∧ is = is0.shift offset := by
  refine foldl_iff_exists (P := fun ii : InvertIndex => is ∈ ii.states sid)
    (A := fun item => ∃ c, unmarshal item = .ok c ∧ ∃ is0, c.Has sid is0 ∧ is = is0.shift offset)
    (fun ii item => ?_) l ii
  rw [InvertIndex.unmarshal]
  cases unmarshal item with
  | error => simp
  | ok c => simp [mem_states_merge]

theorem mem_ids_foldl_unmarshal {l : List Bytes} {n : ℕ} :
    n ∈ (l.foldl (fun ii item => ii.unmarshal offset item) ii).ids ↔ n ∈ ii.ids ∨
      ∃ item ∈ l, ∃ c, unmarshal item = .ok c ∧ n ∈ c.ids := by
  refine foldl_iff_exists (P := fun ii : InvertIndex => n ∈ ii.ids)
    (A := fun item => ∃ c, unmarshal item = .ok c ∧ n ∈ c.ids) (fun ii item => ?_) l ii
  rw [InvertIndex.unmarshal]
  cases unmarshal item with
  | error => simp
  | ok c => simp [mem_ids_merge]

/-- A table gives the items that were added, as they were added, and nothing else. -/
structure Holds (T : Table) (items : List Item) : Prop where
  byVtoken : ∀ ws, (∀ w ∈ ws, IsWord w) → ∀ P : Content → Prop,
    (∃ item ∈ T (0 :: vtoken ws ++ [txSuffix]), ∃ c, unmarshal item = .ok c ∧ P c) ↔ ∃ x, (ws, x) ∈ items ∧ P x.content
  byPrefixVtoken : ∀ ws, (∀ w ∈ ws, IsWord w) → ∀ P : Content → Prop,
    (∃ item ∈ T (0 :: vtoken ws), ∃ c, unmarshal item = .ok c ∧ P c) ↔
      ∃ p, ws <+: p ∧ ∃ x, (p, x) ∈ items ∧ P x.content

theorem holds_itemTable {items : List Item} (hwords : ∀ x ∈ items, ∀ w ∈ x.1, IsWord w)
    (hread : ∀ x ∈ items, unmarshal (marshal x.1 x.2) = .ok x.2.content) : Holds (itemTable items) items := by
  have hmarshal (p : List Bytes) (ii : InvertIndex) : ∃ t, marshal p ii = 0 :: (vtoken p ++ txSuffix :: t) :=
    ⟨_, by rw [marshal, itemKey, append_assoc, append_assoc, cons_append, singleton_append]⟩
  -- what is read behind a key is what was written under the words that the key fits
  have htable (kb : Bytes) (P : Content → Prop) : (∃ item ∈ itemTable items kb, ∃ c, unmarshal item = .ok c ∧ P c) ↔
      ∃ p x, (p, x) ∈ items ∧ kb <+: marshal p x ∧ P x.content := by
    simp only [itemTable, mem_filter, mem_map, decide_eq_true_eq]
    constructor
    · rintro ⟨_, ⟨⟨⟨p, x⟩, hmem, rfl⟩, hpre⟩, c, hc, hP⟩
      cases (hread _ hmem).symm.trans hc
      exact ⟨p, x, hmem, hpre, hP⟩
    · rintro ⟨p, x, hmem, hpre, hP⟩
      exact ⟨_, ⟨⟨(p, x), hmem, rfl⟩, hpre⟩, _, hread _ hmem, hP⟩
  constructor
  · intro ws hws P
    rw [htable]
    constructor
    · rintro ⟨p, x, hmem, hpre, hP⟩
      obtain ⟨t, ht⟩ := hmarshal p x
      rw [ht] at hpre
      obtain rfl := (vtoken_tab_prefix_iff hws (hwords _ hmem) t).mp (cons_prefix_cons.mp hpre).2
      exact ⟨x, hmem, hP⟩
    · rintro ⟨x, hmem, hP⟩
      obtain ⟨t, ht⟩ := hmarshal ws x
      exact ⟨ws, x, hmem, ht ▸ cons_prefix_cons.mpr ⟨rfl, (vtoken_tab_prefix_iff hws hws t).mpr rfl⟩, hP⟩
  · intro ws hws P
    rw [htable]
    refine exists_congr fun p => ?_
    constructor
    · rintro ⟨x, hmem, hpre, hP⟩
      obtain ⟨t, ht⟩ := hmarshal p x
      rw [ht] at hpre
      exact ⟨(vtoken_prefix_iff hws (hwords _ hmem) t).mp (cons_prefix_cons.mp hpre).2, x, hmem, hP⟩
    · rintro ⟨hpre, x, hmem, hP⟩
      obtain ⟨t, ht⟩ := hmarshal p x
      exact ⟨x, hmem, ht ▸ cons_prefix_cons.mpr ⟨rfl, (vtoken_prefix_iff hws (hwords _ hmem) t).mpr hpre⟩, hP⟩

section Search

theorem exists_shift_iff_posts {items : List Item} {p : List Bytes} {sid : UInt64} {is : InvertState} {offset : ℕ} :
    (∃ ii, (p, ii) ∈ items ∧ ∃ is0, is0 ∈ ii.states sid ∧ is = is0.shift offset) ↔
      ∃ is0, Posts items p sid is0 ∧ is = is0.shift offset := by
  constructor
  · rintro ⟨ii, hii, is0, his0, h⟩
    exact ⟨is0, ⟨ii, hii, his0⟩, h⟩
  · rintro ⟨is0, ⟨ii, hii, his0⟩, h⟩
    exact ⟨ii, hii, is0, his0, h⟩

variable {T : Table} {items : List Item} (hT : Holds T items) {ws : List Bytes} (hws : ∀ w ∈ ws, IsWord w)
  {ii : InvertIndex} {offset : ℕ} {sid : UInt64} {is : InvertState} {n : ℕ}

include hT hws

theorem mem_states_searchByVtoken : is ∈ (searchInvertIndexByVtoken T (vtoken ws) ii offset).states sid ↔
      is ∈ ii.states sid ∨ ∃ is0, Posts items ws sid is0 ∧ is = is0.shift offset := by
  rw [searchInvertIndexByVtoken, mem_states_foldl_unmarshal,
    hT.byVtoken ws hws fun c => ∃ is0, c.Has sid is0 ∧ is = is0.shift offset]
  simp only [has_content, exists_shift_iff_posts]

theorem mem_ids_searchByVtoken :
    n ∈ (searchInvertIndexByVtoken T (vtoken ws) ii offset).ids ↔ n ∈ ii.ids ∨ Ids items ws n := by
  rw [searchInvertIndexByVtoken, mem_ids_foldl_unmarshal, hT.byVtoken ws hws fun c => n ∈ c.ids]
  simp only [mem_ids_content, Ids]

theorem mem_states_searchByPrefixVtoken : is ∈ (searchInvertIndexByPrefixVtoken T (vtoken ws) ii offset).states sid ↔
      is ∈ ii.states sid ∨ ∃ p, ws <+: p ∧ ∃ is0, Posts items p sid is0 ∧ is = is0.shift offset := by
  rw [searchInvertIndexByPrefixVtoken, mem_states_foldl_unmarshal,
    hT.byPrefixVtoken ws hws fun c => ∃ is0, c.Has sid is0 ∧ is = is0.shift offset]
  simp only [has_content, exists_shift_iff_posts]

theorem mem_ids_searchByPrefixVtoken : n ∈ (searchInvertIndexByPrefixVtoken T (vtoken ws) ii offset).ids ↔
      n ∈ ii.ids ∨ ∃ p, ws <+: p ∧ Ids items p n := by
  rw [searchInvertIndexByPrefixVtoken, mem_ids_foldl_unmarshal, hT.byPrefixVtoken ws hws fun c => n ∈ c.ids]
  simp only [mem_ids_content, Ids]

end Search

/-! ### Sorted postings -/

theorem shift_zero (h : is.position < 2 ^ 16) : is.shift 0 = is := by
  rw [InvertState.shift, Nat.add_zero, Nat.mod_eq_of_lt h]

theorem key_injective : Function.Injective InvertState.key := by
  rintro ⟨r, p⟩ ⟨r', p'⟩ h
  have hpair : (r.toInt, p) = (r'.toInt, p') := toLex.injective h
  obtain ⟨hr, rfl⟩ := Prod.mk.inj hpair
  rw [Int64.toInt_inj.mp hr]

theorem le_iff_key {is' : InvertState} : is.le is' = true ↔ is.key ≤ is'.key := by
  rw [InvertState.key, InvertState.key, Prod.Lex.toLex_le_toLex, InvertState.le, Bool.or_eq_true, Bool.and_eq_true,
    decide_eq_true_eq, decide_eq_true_eq, decide_eq_true_eq, Int64.lt_iff_toInt_lt, Int64.toInt_inj]

/-- The postings are in order. -/
def Ascending (iss : List InvertState) : Prop := iss.Pairwise fun a b => a.key ≤ b.key

theorem invertIsExisted_iff {iss : List InvertState} (h : Ascending iss) (is : InvertState) :
    invertIsExisted iss is = true ↔ is ∈ iss := by
  rw [invertIsExisted, decide_eq_true_eq]
  refine ⟨mem_of_getElem?, fun hmem => ?_⟩
  have mono : ∀ a b, a ≤ b → b < iss.length → iss[a]?.any is.le = true → iss[b]?.any is.le = true := by
    intro a b hab hb ha
    rw [getElem?_eq_getElem (by omega), Option.any_some, le_iff_key] at ha
    rw [getElem?_eq_getElem hb, Option.any_some, le_iff_key]
    rcases hab.eq_or_lt with rfl | hlt
    · exact ha
    · exact ha.trans (pairwise_iff_getElem.mp h a b (by omega) hb hlt)
  obtain ⟨-, hlow, hhigh⟩ := sortSearch_spec mono 0 iss.length (Nat.zero_le _) (le_refl _)
    (fun k hk => absurd hk (Nat.not_lt_zero k)) (fun k hk hkn => absurd hkn (by omega))
  generalize sortSearch (fun i => iss[i]?.any is.le) 0 iss.length = n at hlow hhigh ⊢
  obtain ⟨i, hi⟩ := getElem?_of_mem hmem
  obtain ⟨hilt, hieq⟩ := List.getElem?_eq_some_iff.mp hi
  have hni : n ≤ i := by
    by_contra hlt
    have := hlow i (by omega)
    rw [hi, Option.any_some, Bool.eq_false_iff, Ne, le_iff_key] at this
    exact this le_rfl
  have hn : n < iss.length := by omega
  have hle := hhigh n (le_refl _) hn
  rw [getElem?_eq_getElem hn, Option.any_some, le_iff_key] at hle
  rw [getElem?_eq_getElem hn]
  rcases hni.eq_or_lt with rfl | hlt
  · rw [hieq]
  · have hge := pairwise_iff_getElem.mp h n i hn hilt hlt
    rw [hieq] at hge
    rw [key_injective (le_antisymm hge hle)]

theorem ascending_Sort (ii : InvertIndex) (sids : List UInt64) (sid : UInt64) :
    Ascending ((ii.Sort sids).states sid) := by
  rw [InvertIndex.Sort, states_mapStates rfl]
  exact pairwise_stableSort _ _

/-! ### Intersection -/

theorem states_foldl_AddInvertState (iss : List InvertState) (ii : InvertIndex) (sid sid' : UInt64) :
    (iss.foldl (fun ii is => ii.AddInvertState sid is) ii).states sid' =
      ii.states sid' ++ if sid' = sid then iss else [] := by
  induction iss generalizing ii with
  | nil => rw [foldl_nil, ite_self, append_nil]
  | cons is iss ih =>
    rw [foldl_cons, ih, InvertIndex.AddInvertState, states_Append, append_assoc]
    split_ifs <;> rfl

theorem intersectStates_nil_left (cur : List InvertState) (dis : ℕ) : intersectStates [] cur dis = [] := by
  rfl

theorem intersectStates_nil_right (pre : List InvertState) (dis : ℕ) : intersectStates pre [] dis = [] := by
  cases pre with
  | nil => exact intersectStates_nil_left [] dis
  | cons is pre =>
    rfl

theorem states_intersectSeries (cur : InvertIndex) (dis : ℕ) (res : InvertIndex) (x : UInt64 × List InvertState)
    (sid : UInt64) : (intersectSeries cur dis res x).states sid =
      res.states sid ++ if sid = x.1 then intersectStates x.2 (cur.states sid) dis else [] := by
  rw [intersectSeries]
  cases hl : cur.invertStates.lookup x.1 with
  | none =>
    have hnil : cur.states x.1 = [] := by rw [InvertIndex.states, hl]; rfl
    split_ifs with hsid
    · rw [hsid, hnil, intersectStates_nil_right, append_nil]
    · rw [append_nil]
  | some curIss =>
    have hsome : cur.states x.1 = curIss := by rw [InvertIndex.states, hl]; rfl
    rw [states_foldl_AddInvertState]
    split_ifs with hsid
    · rw [hsid, hsome]
    · rfl

theorem states_intersect (pre cur : InvertIndex) (dis : ℕ) (sid : UInt64) :
    (IntersectInvertByDistance pre cur dis).states sid = intersectStates (pre.states sid) (cur.states sid) dis := by
  have hloop : ∀ (l : List (UInt64 × List InvertState)) res, (l.map Prod.fst).Nodup →
      (l.foldl (intersectSeries cur dis) res).states sid =
        res.states sid ++ intersectStates ((l.lookup sid).getD []) (cur.states sid) dis := by
    intro l
    induction l with
    | nil =>
      intro res _
      change res.states sid = res.states sid ++ intersectStates [] (cur.states sid) dis
      rw [intersectStates_nil_left, append_nil]
    | cons x l ih =>
      intro res hnodup
      obtain ⟨hx, hnodup⟩ := nodup_cons.mp hnodup
      rw [foldl_cons, ih _ hnodup, states_intersectSeries, append_assoc, lookup_cons]
      by_cases hsid : sid = x.1
      · have hnone : l.lookup sid = none := lookup_eq_none.mpr (hsid ▸ hx)
        rw [if_pos hsid, hnone, beq_iff_eq.mpr hsid]
        change _ ++ (_ ++ intersectStates [] _ _) = _
        rw [intersectStates_nil_left, append_nil]
        rfl
      · rw [if_neg hsid, nil_append, beq_false_of_ne hsid]
  rw [IntersectInvertByDistance, hloop _ _ pre.states_nodup]
  rfl

section Intersect

variable {pre cur : List InvertState} {dis : ℕ}

/-- The shorter list moved back by the distance, as far as it is in the other one. -/
theorem intersectStates_of_gt (h : pre.length > cur.length) : intersectStates pre cur dis =
    ((cur.filter fun is => dis ≤ is.position).map fun is => ⟨is.rowId, is.position - dis⟩).filter
      (invertIsExisted pre) := by
  rw [intersectStates, if_pos h]
  generalize cur.filter _ = l
  rw [← filterMap_eq_filter, filterMap_map]
  rfl

variable (hpre : Ascending pre) (hcur : Ascending cur)

include hpre hcur

/-- A kept posting is one of the first list and has one of the second at the distance. -/
theorem mem_intersectStates {is : InvertState} (h : is ∈ intersectStates pre cur dis) :
    is ∈ pre ∧ (⟨is.rowId, is.position + dis⟩ ∈ cur ∨ ⟨is.rowId, (is.position + dis) % 2 ^ 16⟩ ∈ cur) := by
  by_cases hlen : pre.length > cur.length
  · rw [intersectStates_of_gt hlen] at h
    obtain ⟨hmem, hex⟩ := mem_filter.mp h
    obtain ⟨is', hmem', rfl⟩ := mem_map.mp hmem
    obtain ⟨hmem', hdis⟩ := mem_filter.mp hmem'
    refine ⟨(invertIsExisted_iff hpre _).mp hex, .inl ?_⟩
    rwa [Nat.sub_add_cancel (of_decide_eq_true hdis)]
  · rw [intersectStates, if_neg hlen] at h
    obtain ⟨hmem, hex⟩ := mem_filter.mp h
    exact ⟨hmem, .inr ((invertIsExisted_iff hcur _).mp hex)⟩

/-- A posting with one at the distance is kept, if the distance does not lead beyond 16 bits. -/
theorem mem_intersectStates_of_mem {is : InvertState} (his : is ∈ pre) (hmem : ⟨is.rowId, is.position + dis⟩ ∈ cur)
    (hlt : is.position + dis < 2 ^ 16) : is ∈ intersectStates pre cur dis := by
  by_cases hlen : pre.length > cur.length
  · rw [intersectStates_of_gt hlen]
    refine mem_filter.mpr ⟨mem_map.mpr ⟨_, mem_filter.mpr ⟨hmem, decide_eq_true (Nat.le_add_left _ _)⟩, ?_⟩,
      (invertIsExisted_iff hpre _).mpr his⟩
    rw [Nat.add_sub_cancel]
  · rw [intersectStates, if_neg hlen]
    refine mem_filter.mpr ⟨his, (invertIsExisted_iff hcur _).mpr ?_⟩
    rwa [Nat.mod_eq_of_lt hlt]

theorem ascending_intersectStates : Ascending (intersectStates pre cur dis) := by
  by_cases hlen : pre.length > cur.length
  · rw [intersectStates_of_gt hlen]
    refine List.Pairwise.filter _ (pairwise_map.mpr ((List.Pairwise.filter _ hcur).imp fun {x y} hxy => ?_))
    rw [InvertState.key, InvertState.key, Prod.Lex.toLex_le_toLex] at hxy ⊢
    exact hxy.imp_right fun h => ⟨h.1, Nat.sub_le_sub_right h.2 dis⟩
  · rw [intersectStates, if_neg hlen]
    exact List.Pairwise.filter _ hpre

end Intersect

/-! ### An index with its lines -/

/-- A dictionary with the inserted groups, whose numbers and offsets fit into 26 and 6 bits. -/
structure Dictionary where
  tree : DicNodes
  fits : ∀ g n, (Analyzer.ofDic tree).group? g = some n → n < 2 ^ 26 ∧ g.length ≤ 2 ^ 6

/-- The analyzer of a learned dictionary, or of none. -/
def analyzerOf : Option Dictionary → Analyzer
  | none => newAnalyzer
  | some d => .ofDic d.tree

/-- An index after a sequence of calls and a `Flush`. -/
structure TextIndex where
  dictionary : Option Dictionary
  events : List Event
  flush : Walk

namespace TextIndex

def analyzer (x : TextIndex) : Analyzer := analyzerOf x.dictionary

def docs (x : TextIndex) : List Doc := documents x.events

def batches (x : TextIndex) : List (List Doc × Walk) := Text.batches [] x.flush x.events

/-- The items in the table. -/
def items (x : TextIndex) (accepts : Item → Bool) : List Item := (run accepts x.analyzer x.events x.flush).table

/-- A line of the index has the words as one of its groups. -/
def Records (x : TextIndex) (g : List Bytes) : Prop := ∃ doc ∈ x.docs, ∃ j, (j, g) ∈ x.analyzer.groups doc.log

end TextIndex

variable {x : TextIndex} {accepts : Item → Bool} {p : List Bytes} {sid : UInt64} {is : InvertState} {n : ℕ}

theorem mem_docs {doc : Doc} : doc ∈ x.docs ↔ ∃ batch ∈ x.batches, doc ∈ batch.1 := by
  have h := flatMap_batches [] x.flush x.events
  rw [nil_append] at h
  rw [TextIndex.docs, ← h, mem_flatMap]
  rfl

/-! ### The items of all batches -/

theorem mem_items {y : Item} : y ∈ x.items accepts ↔ ∃ batch ∈ x.batches, y ∈ written accepts x.analyzer batch := by
  rw [TextIndex.items, table_run, mem_flatMap]
  rfl

theorem isWord_of_mem_items {y : Item} (h : y ∈ x.items accepts) : ∀ w ∈ y.1, IsWord w := by
  obtain ⟨batch, -, hmem⟩ := mem_items.mp h
  obtain ⟨hp, hval, -⟩ := mem_written (show (y.1, y.2) ∈ written accepts x.analyzer batch from hmem)
  obtain ⟨doc, -, j, g, hg, i, hpre⟩ := exists_group_of_val? hp (Option.isSome_of_eq_some hval)
  exact fun w hw => isWord_of_mem_groups hg w (mem_of_mem_drop (hpre.subset hw))

theorem posts_iff : Posts (x.items accepts) p sid is ↔
    ∃ batch ∈ x.batches, Posts (written accepts x.analyzer batch) p sid is := by
  constructor
  · rintro ⟨ii, hmem, his⟩
    obtain ⟨batch, hbatch, hmem⟩ := mem_items.mp hmem
    exact ⟨batch, hbatch, ii, hmem, his⟩
  · rintro ⟨batch, hbatch, ii, hmem, his⟩
    exact ⟨ii, mem_items.mpr ⟨batch, hbatch, hmem⟩, his⟩

theorem ids_iff : Ids (x.items accepts) p n ↔ ∃ batch ∈ x.batches, Ids (written accepts x.analyzer batch) p n := by
  constructor
  · rintro ⟨ii, hmem, hn⟩
    obtain ⟨batch, hbatch, hmem⟩ := mem_items.mp hmem
    exact ⟨batch, hbatch, ii, hmem, hn⟩
  · rintro ⟨batch, hbatch, ii, hmem, hn⟩
    exact ⟨ii, mem_items.mpr ⟨batch, hbatch, hmem⟩, hn⟩

/-! ### A table that takes every item -/

/-- The items when the table takes every item. -/
def TextIndex.allItems (x : TextIndex) : List Item := x.items fun _ => true

theorem posts_allItems (hp : p ≠ []) : Posts x.allItems p sid is ↔
    ∃ doc ∈ x.docs, sid = doc.sid ∧ ∃ j, (j, p) ∈ x.analyzer.groups doc.log ∧ is = ⟨doc.rowId, j % 2 ^ 16⟩ := by
  rw [TextIndex.allItems, posts_iff]
  constructor
  · rintro ⟨batch, hbatch, h⟩
    obtain ⟨-, -, doc, hdoc, h⟩ := posts_written.mp h
    exact ⟨doc, mem_docs.mpr ⟨batch, hbatch, hdoc⟩, h⟩
  · rintro ⟨doc, hdoc, h⟩
    obtain ⟨batch, hbatch, hdoc⟩ := mem_docs.mp hdoc
    obtain ⟨ii, hval, his⟩ := (hasPosting_analyse hp).mpr ⟨doc, hdoc, h⟩
    refine ⟨batch, hbatch, posts_written.mpr ⟨writes_all hp hval ?_, hp, doc, hdoc, h⟩⟩
    obtain ⟨iss, hiss, -⟩ := mem_states.mp his
    rw [hasItem, InvertIndex.isEmpty, Bool.not_eq_true', Bool.and_eq_false_iff]
    exact .inl (isEmpty_eq_false_iff_exists_mem.mpr ⟨_, hiss⟩)

theorem ids_allItems (hp : p ≠ []) : Ids x.allItems p n ↔ ∃ g, x.Records g ∧
    ∃ i, 1 ≤ i ∧ i < g.length ∧ p = g.drop i ∧ n = assembleId (x.analyzer.idOf g) i := by
  rw [TextIndex.allItems, ids_iff]
  constructor
  · rintro ⟨batch, hbatch, h⟩
    obtain ⟨-, -, doc, hdoc, j, g, hg, h⟩ := ids_written.mp h
    exact ⟨g, ⟨doc, mem_docs.mpr ⟨batch, hbatch, hdoc⟩, j, hg⟩, h⟩
  · rintro ⟨g, ⟨doc, hdoc, j, hg⟩, h⟩
    obtain ⟨batch, hbatch, hdoc⟩ := mem_docs.mp hdoc
    obtain ⟨ii, hval, hn⟩ := (hasId_analyse hp).mpr ⟨doc, hdoc, j, g, hg, h⟩
    refine ⟨batch, hbatch, ids_written.mpr ⟨writes_all hp hval ?_, hp, doc, hdoc, j, g, hg, h⟩⟩
    rw [hasItem, InvertIndex.isEmpty, Bool.not_eq_true', Bool.and_eq_false_iff]
    exact .inr (isEmpty_eq_false_iff_exists_mem.mpr ⟨_, hn⟩)

/-- The table that returns exactly the items that were added. -/
def TextIndex.table (x : TextIndex) : Table := itemTable x.allItems

/-- All items can be stored. -/
def TextIndex.Storable (x : TextIndex) : Prop := ∀ y ∈ x.allItems, Text.Storable y

theorem ne_nil_of_mem_items {y : Item} (h : y ∈ x.items accepts) : y.1 ≠ [] := by
  obtain ⟨batch, -, hmem⟩ := mem_items.mp h
  exact (mem_written (show (y.1, y.2) ∈ written accepts x.analyzer batch from hmem)).1

theorem holds_table (h : x.Storable) : Holds x.table x.allItems := by
  refine holds_itemTable (fun _ hy => isWord_of_mem_items hy) fun y hy => unmarshal_marshal (h y hy) ?_ ?_
  · intro sid is his
    obtain ⟨doc, -, -, j, -, rfl⟩ := (posts_allItems (ne_nil_of_mem_items hy)).mp ⟨y.2, hy, his⟩
    exact Nat.mod_lt j (Nat.two_pow_pos 16)
  · intro n hn
    obtain ⟨g, -, i, -, -, -, rfl⟩ := (ids_allItems (ne_nil_of_mem_items hy)).mp ⟨y.2, hy, hn⟩
    exact Nat.mod_lt _ (Nat.two_pow_pos 32)

/-- Every line has fewer than `2 ^ 16` words, so positions fit. -/
def TextIndex.Short (x : TextIndex) : Prop := ∀ doc ∈ x.docs, doc.log.words.length < 2 ^ 16

theorem posts_iff_group (hshort : x.Short) (hp : p ≠ []) : Posts x.allItems p sid is ↔
    ∃ doc ∈ x.docs, sid = doc.sid ∧ doc.rowId = is.rowId ∧ (is.position, p) ∈ x.analyzer.groups doc.log := by
  rw [posts_allItems hp]
  refine exists_congr fun doc => and_congr_right fun hdoc => and_congr_right fun _ => ?_
  constructor
  · rintro ⟨j, hj, rfl⟩
    have hlt := (mem_cover_zero.mp hj).1
    refine ⟨rfl, ?_⟩
    rwa [Nat.mod_eq_of_lt (hlt.trans (hshort doc hdoc))]
  · rintro ⟨hrow, hj⟩
    have hlt := (mem_cover_zero.mp hj).1
    refine ⟨is.position, hj, ?_⟩
    rw [Nat.mod_eq_of_lt (hlt.trans (hshort doc hdoc)), hrow]

variable {g : List Bytes}

theorem isWord_of_records (h : x.Records g) : ∀ w ∈ g, IsWord w := by
  obtain ⟨doc, -, j, hj⟩ := h
  exact isWord_of_mem_groups hj

theorem ne_nil_of_records (h : x.Records g) : g ≠ [] := by
  obtain ⟨doc, -, j, hj⟩ := h
  exact cover_ne_nil hj

/-! ### Resolving numbers -/

theorem group?_fits {d : Option Dictionary} {n : ℕ} (h : (analyzerOf d).group? g = some n) :
    n < 2 ^ 26 ∧ g.length ≤ 2 ^ 6 := by
  cases d with
  | none => cases h
  | some d => exact d.fits g n h

theorem findVtokenByID_idOf {d : Option Dictionary} (hg : 2 ≤ g.length)
    (h : (analyzerOf d).group? g = some ((analyzerOf d).idOf g)) :
    findVtokenByID (analyzerOf d) ((analyzerOf d).idOf g) = vtoken g := by
  cases d with
  | none => cases h
  | some d => exact findVtokenByID_of_group (by rintro rfl; exact absurd hg (by decide)) h

theorem vtoken_ne_nil (h : g ≠ []) : vtoken g ≠ [] := by
  obtain ⟨w, ws, rfl⟩ := exists_cons_of_ne_nil h
  rw [vtoken_cons]
  exact append_ne_nil_of_right_ne_nil _ (cons_ne_nil _ _)

/-- The number of a recorded group with an offset in it leads to the items of the group. -/
theorem visitId_assembleId (hg : x.Records g) {i : ℕ} (hi : 1 ≤ i) (hlt : i < g.length) (T : Table)
    (ii : InvertIndex) : visitId x.analyzer T (assembleId (x.analyzer.idOf g) i) ii =
      searchInvertIndexByVtoken T (vtoken g) ii i := by
  obtain ⟨doc, -, j, hj⟩ := hg
  have hgroup := group?_of_mem_groups hj (by omega)
  obtain ⟨hid, hlen⟩ := group?_fits hgroup
  have hne : g ≠ [] := by
    rintro rfl
    exact Nat.not_lt_zero _ hlt
  rw [visitId, disassembleId_assembleId hid (by omega)]
  rw [TextIndex.analyzer, findVtokenByID_idOf (by omega) hgroup, if_neg (vtoken_ne_nil hne)]

theorem mem_ids_visitId (a : Analyzer) (T : Table) (n m : ℕ) (ii : InvertIndex) (h : n ∈ ii.ids) :
    n ∈ (visitId a T m ii).ids := by
  rw [visitId]
  split_ifs
  · exact h
  · exact mem_ids_foldl_unmarshal.mpr (.inl h)

theorem mem_states_visitId (a : Analyzer) (T : Table) (m : ℕ) (ii : InvertIndex) (h : is ∈ ii.states sid) :
    is ∈ (visitId a T m ii).states sid := by
  rw [visitId]
  split_ifs
  · exact h
  · exact mem_states_foldl_unmarshal.mpr (.inl h)

end GeminiTS.Text
