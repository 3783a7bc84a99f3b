import GeminiTS.Text.PhraseReal

/-!
# PhraseFound — phrase search misses nothing

Line and phrase are cut into groups independently. The first group of the phrase may lie at the end of a longer group
of the line, the last one at the beginning of a longer one, and those between are groups of the line: all this if the
dictionary has, with every group, the group without its first word.
-/

namespace GeminiTS.Text

open Lib List

/-- `MatchPhrase` returns, and its result has every row of the data set that holds the phrase. -/
def TextIndex.Finds (x : TextIndex) (phrase : Log) (sids : List UInt64) : Prop :=
  (∃ r, MatchPhrase x.analyzer x.table phrase sids r) ∧
    ∀ r, MatchPhrase x.analyzer x.table phrase sids r → ∀ doc ∈ x.docs, isInDataSet sids doc.sid = true →
      phrase.words <:+: doc.log.words → ∃ ii, r = some ii ∧ ∃ is ∈ ii.states doc.sid, is.rowId = doc.rowId

/-- Dropping the first word of a group gives a group. A single word is a group anyway. -/
def Analyzer.Closed (a : Analyzer) : Prop :=
  ∀ g, (∀ w ∈ g, IsWord w) → 3 ≤ g.length → (a.group? g).isSome → (a.group? g.tail).isSome

/-! ### Groups of lines -/

variable {a : Analyzer} {log phrase : Log} {g : List Bytes} {sid : UInt64} {is : InvertState}

/-- A group at the head of the words is not longer than the longest one. -/
theorem le_size_of_group? {ws : List Bytes} (hg : g <+: ws) (h : (a.group? g).isSome) :
    g.length ≤ a.grouping.size ws := by
  cases ws with
  | nil => exact le_of_eq (by rw [prefix_nil.mp hg]; rfl)
  | cons w ws =>
    change g.length ≤ (findLongestTokens a (w :: ws)).1.length
    rw [Analyzer.group?] at h
    cases ha : a.dicMap with
    | none =>
      rw [ha] at h
      cases h
    | some node =>
      rw [ha] at h
      have hle := le_length_longestIn hg h
      rw [findLongestTokens_of_some ha, orFirst]
      split_ifs with hnil
      · rw [hnil] at hle
        exact hle.trans (Nat.zero_le _)
      · exact hle

/-- With a closed dictionary no group of a line ends before the one at the position before. -/
theorem ascends_of_closed (ha : a.Closed) (log : Log) : a.grouping.Ascends log.words := by
  intro i hi
  have hcons := drop_eq_getElem_cons (show i < log.words.length by omega)
  have hcons' := drop_eq_getElem_cons hi
  unfold Grouping.stop
  suffices hsize : a.grouping.size (log.words.drop i) ≤ a.grouping.size (log.words.drop (i + 1)) + 1 by omega
  by_cases hthree : 3 ≤ a.grouping.size (log.words.drop i)
  · -- The group without its first word stands at the next position.
    have hlen : 2 ≤ (findLongestTokens a (log.words.drop i)).1.length := Nat.le_of_succ_le hthree
    have hsome : (a.group? (findLongestTokens a (log.words.drop i)).1).isSome := by
      rw [hcons] at hlen ⊢
      exact (group?_findLongestTokens a _ _).1 hlen
    have hwords : ∀ w ∈ (findLongestTokens a (log.words.drop i)).1, IsWord w := fun w hw =>
      log.isWord w (mem_of_mem_drop ((findLongestTokens_isPrefix a _).subset hw))
    have htail := ha _ hwords hthree hsome
    have hpre : (findLongestTokens a (log.words.drop i)).1.tail <+: log.words.drop (i + 1) := by
      have := (findLongestTokens_isPrefix a (log.words.drop i)).drop 1
      rwa [drop_drop, drop_one] at this
    have hle := le_size_of_group? hpre htail
    rw [length_tail] at hle
    change (findLongestTokens a (log.words.drop i)).1.length ≤ _
    omega
  · have hpos : 0 < a.grouping.size (log.words.drop (i + 1)) := by
      rw [hcons']
      exact a.grouping.pos _ _
    omega

/-! ### Results -/

theorem exists_resolvesIds (a : Analyzer) (T : Table) (ii : InvertIndex) : ∃ r, ResolvesIds a T ii r :=
  ⟨_, Ranges.of_start (fun n m ii => mem_ids_visitId a T n m ii) ii.ids_nodup⟩

theorem exists_matchPhrase (a : Analyzer) (T : Table) (phrase : Log) (sids : List UInt64) :
    ∃ r, MatchPhrase a T phrase sids r := by
  unfold MatchPhrase
  generalize analyze a phrase = vs
  match vs with
  | [] => exact ⟨none, rfl⟩
  | [v] =>
    obtain ⟨ii, hii⟩ := exists_resolvesIds a T (searchInvertByPrefixVtoken T v.tokens)
    exact ⟨_, ii, hii, rfl⟩
  | v :: v' :: vs =>
    obtain ⟨ii, hii⟩ := exists_resolvesIds a T (searchInvertByVtoken T v.tokens)
    exact ⟨_, ii, hii, rfl⟩

/-- What is found at the start, or for a number of the start, is in the result. -/
theorem mem_states_of_resolvesIds {T : Table} {ii r : InvertIndex} (h : ResolvesIds a T ii r)
    (his : is ∈ ii.states sid ∨ ∃ n ∈ ii.ids, ∀ ii, is ∈ (visitId a T n ii).states sid) : is ∈ r.states sid := by
  rcases his with his | ⟨n, hn, hvisit⟩
  · exact h.invariant his fun ii n his _ => mem_states_visitId a T n ii his
  · refine h.visited (Q := fun k ii => k = n → is ∈ ii.states sid) ?_ ?_ (fun k hk => absurd hk not_mem_nil) n hn rfl
    · rintro k ii rfl
      exact hvisit ii
    · exact fun k k' ii h hk => mem_states_visitId a T k' ii (h hk)

section Found

variable {x : TextIndex} (hshort : x.Short) {doc : Doc} (hdoc : doc ∈ x.docs) {p : ℕ} {sids : List UInt64}
  (hsid : isInDataSet sids doc.sid = true)

include hshort hdoc

/-- A group that holds the words at the position gives a posting, by itself or by its number. -/
theorem posting_of_group {ws g : List Bytes} (hne : ws ≠ []) {i : ℕ}
    (hg : (i, g) ∈ x.analyzer.groups doc.log) (hi : i ≤ p) (hpre : ws <+: g.drop (p - i)) (T : Table)
    (hT : Holds T x.allItems) {ii : InvertIndex}
    (hstates : ∀ sid is, Posts x.allItems (g.drop (p - i)) sid is → is.shift 0 ∈ ii.states sid)
    (hids : ∀ n, Ids x.allItems (g.drop (p - i)) n → n ∈ ii.ids) :
    ⟨doc.rowId, p⟩ ∈ ii.states doc.sid ∨
      ∃ n ∈ ii.ids, ∀ ii, ⟨doc.rowId, p⟩ ∈ (visitId x.analyzer T n ii).states doc.sid := by
  have hlt : p - i < g.length := by
    have hlen := hpre.length_le
    have hpos := length_pos_iff.mpr hne
    rw [length_drop] at hlen
    omega
  have hin : p < 2 ^ 16 := by
    have hlen := (prefix_drop_of_mem hg).length_le
    have := hshort doc hdoc
    rw [length_drop] at hlen
    omega
  have hposts : Posts x.allItems g doc.sid ⟨doc.rowId, i⟩ :=
    (posts_iff_group hshort (cover_ne_nil hg)).mpr ⟨doc, hdoc, rfl, rfl, hg⟩
  rcases hi.eq_or_lt with rfl | hi
  · rw [Nat.sub_self] at hstates
    refine .inl ?_
    have := hstates _ _ hposts
    rwa [shift_zero hin] at this
  · have hrec : x.Records g := ⟨doc, hdoc, i, hg⟩
    refine .inr ⟨assembleId (x.analyzer.idOf g) (p - i), hids _ ?_, fun ii => ?_⟩
    · exact (ids_allItems (ne_nil_of_length_pos (by rw [length_drop]; omega))).mpr
        ⟨g, hrec, p - i, by omega, hlt, rfl, rfl⟩
    · rw [visitId_assembleId hrec (by omega) hlt]
      refine (mem_states_searchByVtoken hT (isWord_of_records hrec)).mpr (.inr ⟨_, hposts, ?_⟩)
      change _ = (⟨doc.rowId, (i + (p - i)) % 2 ^ 16⟩ : InvertState)
      rw [Nat.add_sub_cancel' hi.le, Nat.mod_eq_of_lt hin]

include hsid

theorem mem_intersect_of_group {pre cur : InvertIndex} {j : ℕ} {g : List Bytes}
    (hpre : Ascending (pre.states doc.sid)) (his : ⟨doc.rowId, p⟩ ∈ pre.states doc.sid)
    (hg : (p + j, g) ∈ x.analyzer.groups doc.log)
    (hcur : ∀ sid is, Posts x.allItems g sid is → is.shift 0 ∈ cur.states sid) :
    ⟨doc.rowId, p⟩ ∈ (IntersectInvertByDistance pre (cur.Sort sids) (j % 2 ^ 16)).states doc.sid := by
  have hlt : p + j < 2 ^ 16 := (mem_cover_zero.mp hg).1.trans (hshort doc hdoc)
  have hposts : Posts x.allItems g doc.sid ⟨doc.rowId, p + j⟩ :=
    (posts_iff_group hshort (cover_ne_nil hg)).mpr ⟨doc, hdoc, rfl, rfl, hg⟩
  have hmem := hcur _ _ hposts
  rw [shift_zero hlt] at hmem
  rw [states_intersect, Nat.mod_eq_of_lt (show j < 2 ^ 16 by omega)]
  exact mem_intersectStates_of_mem hpre (ascending_Sort _ _ _) his (mem_states_Sort.mpr ⟨hsid, hmem⟩) hlt

/-- A posting is kept to the end if the groups between are groups of the line at their distance, and the last one begins
a group of it. -/
theorem mem_intersectGroups_of_groups (hstore : x.Storable) {rest : List (ℕ × List Bytes)} {pre : InvertIndex}
    (hwords : ∀ y ∈ rest, ∀ w ∈ y.2, IsWord w)
    (hlast : ∀ y ∈ rest, ∃ g, (p + y.1, g) ∈ x.analyzer.groups doc.log ∧ y.2 <+: g)
    (hmiddle : ∀ y ∈ rest.dropLast, (p + y.1, y.2) ∈ x.analyzer.groups doc.log)
    (hpre : ∀ sid, Ascending (pre.states sid)) (his : ⟨doc.rowId, p⟩ ∈ pre.states doc.sid) :
    ⟨doc.rowId, p⟩ ∈
      (intersectGroups x.table sids (rest.map (PhraseIndex.searched x.analyzer)) pre).states doc.sid := by
  induction rest generalizing pre with
  | nil => exact his
  | cons z rest ih =>
    have hzw := hwords z mem_cons_self
    cases rest with
    | nil =>
      obtain ⟨g, hg, hzg⟩ := hlast z mem_cons_self
      refine mem_intersect_of_group hshort hdoc hsid (hpre _) his hg fun sid is hposts => ?_
      exact (mem_states_searchByPrefixVtoken (holds_table hstore) hzw).mpr (.inr ⟨g, hzg, is, hposts, rfl⟩)
    | cons z' rest =>
      refine ih (forall_mem_cons.mp hwords).2 (forall_mem_cons.mp hlast).2
        (forall_mem_cons.mp hmiddle).2 (PhraseIndex.ascending_intersect _ hpre _ _) ?_
      refine mem_intersect_of_group hshort hdoc hsid (hpre _) his (hmiddle z mem_cons_self) fun sid is hposts => ?_
      exact (mem_states_searchByVtoken (holds_table hstore) hzw).mpr (.inr ⟨is, hposts, rfl⟩)

end Found

/-- **With a closed dictionary phrase search misses nothing.** -/
theorem finds_of_closed {x : TextIndex} (hshort : x.Short) (hstore : x.Storable) (hclosed : x.analyzer.Closed)
    (hne : phrase.words ≠ []) (sids : List UInt64) : x.Finds phrase sids := by
  refine ⟨exists_matchPhrase _ _ _ _, fun r hr doc hdoc hsid hinfix => ?_⟩
  obtain ⟨s, t, hst⟩ := hinfix
  have hq : phrase.words <+: doc.log.words.drop s.length := by
    rw [← hst, append_assoc, drop_left]
    exact prefix_append _ _
  have hG := ascends_of_closed hclosed doc.log
  obtain ⟨ys, hcover, hone, hmore, hmiddle⟩ := cover_shape hne
  have hgroups : ∀ y ∈ (0, x.analyzer.grouping.group phrase.words 0) :: ys, (y.1, y.2) ∈ x.analyzer.groups phrase :=
    fun y hy => (hcover ▸ hy :)
  have hfirst := hgroups _ mem_cons_self
  have hword := isWord_of_mem_groups hfirst
  have hgne := cover_ne_nil hfirst
  change x.analyzer.groups phrase = _ at hcover
  rw [MatchPhrase, analyze_eq, hcover] at hr
  cases ys with
  | nil =>
    -- One group: it lies in a group of the line.
    obtain ⟨ii, hii, rfl⟩ := hr
    have hfull := hone rfl
    obtain ⟨i, g, hg, hi, hpre⟩ := cover_only hq hne hfull
    rw [← Grouping.group_of_stop hfull] at hpre
    refine ⟨_, rfl, ⟨doc.rowId, s.length⟩, mem_states_Sort.mpr ⟨hsid, mem_states_of_resolvesIds hii ?_⟩, rfl⟩
    refine posting_of_group hshort hdoc hgne hg hi hpre x.table (holds_table hstore) ?_ ?_
    · exact fun sid is h => (mem_states_searchByPrefixVtoken (holds_table hstore) hword).mpr
        (.inr ⟨_, hpre, is, h, rfl⟩)
    · exact fun n h => (mem_ids_searchByPrefixVtoken (holds_table hstore) hword).mpr (.inr ⟨_, hpre, h⟩)
  | cons z zs =>
    obtain ⟨ii, hii, rfl⟩ := hr
    obtain ⟨i, g, hg, hi, -, hdrop⟩ := cover_first hq hG (hmore z mem_cons_self).2
    have his : ⟨doc.rowId, s.length⟩ ∈ ii.states doc.sid := by
      refine mem_states_of_resolvesIds hii
        (posting_of_group hshort hdoc hgne hg hi (by rw [hdrop]) x.table (holds_table hstore) ?_ ?_)
      · rw [hdrop]
        exact fun sid is h => (mem_states_searchByVtoken (holds_table hstore) hword).mpr (.inr ⟨is, h, rfl⟩)
      · rw [hdrop]
        exact fun n h => (mem_ids_searchByVtoken (holds_table hstore) hword).mpr (.inr h)
    refine ⟨_, rfl, ⟨doc.rowId, s.length⟩, ?_, rfl⟩
    refine mem_intersectGroups_of_groups hshort hdoc hsid hstore ?_ ?_ ?_ (ascending_Sort ii sids)
      (mem_states_Sort.mpr ⟨hsid, his⟩)
    · exact fun v hv => isWord_of_mem_groups (hgroups v (mem_cons_of_mem _ hv))
    · exact fun v hv => cover_last hq hG (hmore v hv).1 (hgroups v (mem_cons_of_mem _ hv))
    · intro v hv
      have hmem := mem_of_mem_dropLast hv
      exact cover_middle hq hG (hmore v hmem).1 (hgroups v (mem_cons_of_mem _ hmem)) (hmiddle v hv)

/-! ### A dictionary that is not closed -/

/-- The maps are gone through in the order of the nodes. -/
def inOrder : Walk := ⟨fun root => root, fun _ h => h, fun _ _ _ => rfl⟩

/-- An index of one line. -/
def oneLine (d : Option Dictionary) (log : Log) : TextIndex := ⟨d, [.addDocument ⟨log, 0, 0⟩ inOrder], inOrder⟩

/-- The index of one line as an index with one line for each row. -/
def oneRow (d : Option Dictionary) (log : Log) (h : log.words.length < 2 ^ 16) (hstore : (oneLine d log).Storable) :
    PhraseIndex where
  toTextIndex := oneLine d log
  short := fun doc hdoc => by
    rw [mem_singleton.mp hdoc]
    exact h
  storable := hstore
  rows := fun doc hdoc doc' hdoc' _ _ => (mem_singleton.mp hdoc).trans (mem_singleton.mp hdoc').symm

theorem eq_of_mem_groups (h : (a.group? log.words).isSome) {j : ℕ} (hg : (j, g) ∈ a.groups log) :
    j = 0 ∧ g = log.words := by
  have hsize : a.grouping.size log.words = log.words.length :=
    le_antisymm (a.grouping.le_length _) (le_size_of_group? (prefix_refl _) h)
  obtain ⟨hlt, rfl, hmax⟩ := mem_cover_zero.mp hg
  obtain rfl : j = 0 := by
    by_contra hj
    have h1 := hmax 0 (Nat.pos_of_ne_zero hj)
    have h2 := Grouping.stop_le (G := a.grouping) hlt.le
    rw [Grouping.stop_zero] at h1
    omega
  exact ⟨rfl, Grouping.group_of_stop ((Grouping.stop_zero _).trans hsize)⟩

/-! ### The items of one group -/

section OneGroup

variable {ii : InvertIndex} {q : List Bytes}

/-- At most one posting. -/
def InvertIndex.Few (ii : InvertIndex) : Prop := ii.invertStates.length ≤ 1 ∧ ∀ s ∈ ii.invertStates, s.2.length ≤ 1

theorem few_insertGroup (doc : Doc) (v : VToken) (hq : q ≠ [])
    (h : Forest.val? q (insertGroup doc NewTrieNode v) = some ii) : ii.Few := by
  have hnew : NewInvertIndex.Few := ⟨Nat.zero_le 1, fun s hs => absurd hs not_mem_nil⟩
  have hid (ii : InvertIndex) (hii : ii.Few) (n : ℕ) : (ii.AddId n).Few := by
    unfold InvertIndex.AddId
    split_ifs
    · exact hii
    · exact hii
  refine foldlRecOn (motive := fun node : TrieNode => ∀ ii, Forest.val? q node = some ii → ii.Few) _ _ ?_ ?_ ii h
  · intro ii hii
    rw [insertTrieNode, val?_change _ hq, val?_new hq] at hii
    split_ifs at hii
    · cases hii
      exact ⟨le_rfl, fun s hs => by rw [mem_singleton.mp hs]; exact le_rfl⟩
    · cases hii
      exact hnew
  · intro node hnode i _ ii hii
    have hget : ((Forest.val? q node).getD NewInvertIndex).Few := by
      cases hv : Forest.val? q node with
      | none => exact hnew
      | some ii => exact hnode ii hv
    rw [insertSuffixToTrie, val?_change _ hq] at hii
    split_ifs at hii
    · cases hii
      exact hid _ hget _
    · cases hii
      exact hget
    · exact hnode ii hii

theorem length_marshal_le (h : ii.Few) (p : List Bytes) :
    (marshal p ii).length ≤ (vtoken p).length + 4 * ii.ids.length + 40 := by
  have hids : ii.content.ids.length = ii.ids.length := (stableSort_perm _ _).length_eq
  have hlen : ii.content.invertStates.length ≤ 1 := by
    rw [InvertIndex.content, (stableSort_perm _ _).length_eq, InvertIndex.Sort, InvertIndex.mapStates, length_map]
    exact (length_filter_le _ _).trans h.1
  have hone : ∀ s ∈ ii.content.invertStates, s.2.length ≤ 1 := by
    intro s hs
    obtain ⟨x, hx, rfl⟩ := mem_map.mp ((stableSort_perm _ _).mem_iff.mp hs)
    exact (stableSort_perm _ _).length_eq.trans_le (h.2 x (mem_of_mem_filter hx))
  have hbytes (is : InvertState) : is.bytes.length = 10 := by
    rw [InvertState.bytes, length_append, Line.marshalInt64, length_beBytes, length_beBytes]
  have hnums (ids : List ℕ) (w : ℕ) : (ids.flatMap (beBytes w)).length = w * ids.length :=
    length_flatMap_of_length (length_beBytes w)
  have hseries : (ii.content.invertStates.flatMap seriesBytes).length ≤ 19 := by
    rcases hst : ii.content.invertStates with _ | ⟨s, _ | ⟨s', rest⟩⟩
    · exact Nat.zero_le _
    · have hs := hone s (by rw [hst]; exact mem_singleton_self s)
      rw [flatMap_singleton, seriesBytes, length_cons, length_append, length_beBytes, length_flatMap_of_length hbytes]
      omega
    · rw [hst, length_cons, length_cons] at hlen
      omega
  rw [marshal, length_append, length_append, itemKey, Content.bytes, marshalMeta, metaLens]
  simp only [length_append, length_cons, length_beBytes, length_nil]
  split_ifs <;> simp only [marshalIdList, length_append, length_cons, length_beBytes, length_nil, hnums,
    length_map] <;> omega

theorem vtoken_infix {ws vs : List Bytes} (h : ws <:+: vs) : vtoken ws <:+: vtoken vs := by
  obtain ⟨s, t, rfl⟩ := h
  rw [vtoken_append, vtoken_append]
  exact ⟨vtoken s, vtoken t, rfl⟩

theorem storable_oneLine {d : Option Dictionary} (hgroup : ((analyzerOf d).group? log.words).isSome)
    (hne : log.words ≠ []) (htab : txSuffix ∉ vtoken log.words) (hlen : (vtoken log.words).length < 2 ^ 15) :
    (oneLine d log).Storable := by
  rintro ⟨p, ii⟩ hy
  have hp := ne_nil_of_mem_items hy
  obtain ⟨batch, hbatch, hmem⟩ := mem_items.mp hy
  obtain rfl := mem_singleton.mp (show batch ∈ [([⟨log, 0, 0⟩], inOrder)] from hbatch)
  obtain ⟨-, hval, -⟩ := mem_written hmem
  -- the line is one group
  have hgroups : (analyzerOf d).groups log = [(0, log.words)] := by
    obtain ⟨ys, hcover, -, hmore, -⟩ := cover_shape hne
    change (analyzerOf d).groups log = _ at hcover
    cases ys with
    | nil =>
      have hfirst := eq_of_mem_groups hgroup (hcover ▸ mem_cons_self)
      rw [hcover, hfirst.2]
    | cons z zs =>
      have hz := eq_of_mem_groups hgroup (j := z.1) (g := z.2) (by rw [hcover]; exact mem_cons_of_mem _ mem_cons_self)
      exact absurd (hmore z mem_cons_self).1 (by rw [hz.1]; exact lt_irrefl 0)
  have hfew : ii.Few := by
    refine few_insertGroup ⟨log, 0, 0⟩ ⟨log.words, (analyzerOf d).idOf log.words, 0 % 2 ^ 16⟩ hp ?_
    have hanalyse : analyse (analyzerOf d) [⟨log, 0, 0⟩] =
        insertGroup ⟨log, 0, 0⟩ NewTrieNode ⟨log.words, (analyzerOf d).idOf log.words, 0 % 2 ^ 16⟩ := by
      rw [analyse, foldl_cons, foldl_nil, analyze_eq, hgroups]
      rfl
    rw [← hanalyse]
    exact hval
  have hinfix : p <:+: log.words := by
    obtain ⟨doc, hdoc, j, g, hg, i, hpre⟩ := exists_group_of_val? hp (Option.isSome_of_eq_some hval)
    rw [mem_singleton.mp hdoc] at hg
    rw [(eq_of_mem_groups hgroup hg).2] at hpre
    exact hpre.isInfix.trans (drop_suffix _ _).isInfix
  have hids : ii.ids.length ≤ 64 := by
    have hsub : ii.ids ⊆ (range (2 ^ 6)).map (assembleId ((analyzerOf d).idOf log.words)) := by
      intro n hn
      obtain ⟨g, ⟨doc, hdoc, j, hg⟩, i, -, hi, -, rfl⟩ := (ids_allItems hp).mp ⟨ii, hy, hn⟩
      rw [mem_singleton.mp hdoc] at hg
      obtain rfl := (eq_of_mem_groups hgroup hg).2
      have hfits := (group?_fits (Option.some_get hgroup).symm).2
      exact mem_map.mpr ⟨i, mem_range.mpr (by omega), rfl⟩
    have hle := (subperm_of_subset ii.ids_nodup hsub).length_le
    rwa [length_map, length_range] at hle
  have hv := vtoken_infix hinfix
  have hmarshal := length_marshal_le hfew p
  have hvlen := hv.length_le
  refine ⟨fun h => htab (hv.subset h), ?_⟩
  show (marshal p ii).length ≤ 2 ^ 16
  omega

end OneGroup

/-- A posting that is kept has a posting of the first of the later groups at its distance. -/
theorem exists_mem_intersect {T : Table} {sids : List UInt64} {v : VToken} {vs : List VToken} {pre : InvertIndex}
    (hpre : ∀ sid, Ascending (pre.states sid)) (h : is ∈ (intersectGroups T sids (v :: vs) pre).states sid) :
    ∃ cur, (cur = searchInvertByVtoken T v.tokens ∨ cur = searchInvertByPrefixVtoken T v.tokens) ∧
      is ∈ (IntersectInvertByDistance pre (cur.Sort sids) v.pos).states sid := by
  cases vs with
  | nil => exact ⟨_, .inr rfl, h⟩
  | cons v' vs =>
    exact ⟨_, .inl rfl, PhraseIndex.mem_of_mem_intersectGroups (PhraseIndex.ascending_intersect _ hpre _ _) h⟩

/-- A phrase that is no group, in a line that is one group with it: only the line's first position has a posting. -/
theorem not_finds_tail {d : Option Dictionary} (hstore : (oneLine d log).Storable)
    (hphrase : phrase.words = log.words.tail) (hthree : 3 ≤ log.words.length)
    (hgroup : ((analyzerOf d).group? log.words).isSome) (htail : ¬ ((analyzerOf d).group? phrase.words).isSome) :
    ¬ (oneLine d log).Finds phrase [] := by
  rintro ⟨⟨r, hr⟩, hfinds⟩
  have hlen : log.words.length ≤ 2 ^ 6 := (group?_fits (Option.some_get hgroup).symm).2
  have hplen : phrase.words.length = log.words.length - 1 := by rw [hphrase, length_tail]
  have hne : phrase.words ≠ [] := ne_nil_of_length_pos (by omega)
  let x := oneRow d log (by omega) hstore
  have honly : ∀ g, x.Records g → g = log.words := by
    rintro g ⟨doc, hdoc, j, hj⟩
    rw [mem_singleton.mp hdoc] at hj
    exact (eq_of_mem_groups hgroup hj).2
  -- No recorded group ends another one, so what is found is real.
  have hclear (ws : List Bytes) : x.Clear ws := by
    intro g h hg hh i hi hlt heq
    rw [honly g hg, honly h hh] at heq
    have := congrArg length heq
    rw [length_drop] at this
    omega
  have hinfix : phrase.words <:+: log.words := hphrase ▸ (tail_suffix _).isInfix
  obtain ⟨ii, rfl, is, his, -⟩ := hfinds r hr ⟨log, 0, 0⟩ mem_cons_self rfl hinfix
  obtain ⟨ys, hcover, hone, hmore, -⟩ := cover_shape hne
  change x.analyzer.groups phrase = _ at hcover
  have hfirst : (0, x.analyzer.grouping.group phrase.words 0) ∈ x.analyzer.groups phrase := by
    rw [hcover]
    exact mem_cons_self
  change MatchPhrase x.analyzer x.table phrase [] (some ii) at hr
  rw [MatchPhrase, analyze_eq, hcover] at hr
  cases ys with
  | nil =>
    -- One group would be the whole phrase.
    rw [Grouping.group_of_stop (hone rfl)] at hfirst
    exact htail (Option.isSome_of_eq_some (group?_of_mem_groups hfirst (by omega)))
  | cons z zs =>
    obtain ⟨ii', hii', heq⟩ := hr
    cases heq
    have hz : (z.1, z.2) ∈ x.analyzer.groups phrase := by
      rw [hcover]
      exact mem_cons_of_mem _ mem_cons_self
    have hzlt := (mem_cover_zero.mp hz).1
    have hzpos := (hmore z mem_cons_self).1
    -- The first group stands where the posting says.
    have hpre := PhraseIndex.mem_of_mem_intersectGroups (ascending_Sort ii' []) his
    obtain ⟨doc, hdoc, -, -, hstand⟩ := PhraseIndex.real_of_clear (isWord_of_mem_groups hfirst) (cover_ne_nil hfirst)
      (hclear _) ii' (.inl hii') _ is (mem_states_Sort.mp hpre).2
    rw [mem_singleton.mp hdoc] at hstand
    have hislt : is.position < log.words.length := by
      have h1 := hstand.length_le
      have h2 := length_pos_iff.mpr (cover_ne_nil hfirst)
      rw [length_drop] at h1
      change _ ≤ log.words.length - _ at h1
      omega
    -- But the second one has a posting at position 0 only.
    obtain ⟨cur, hcur, hkept⟩ := exists_mem_intersect (ascending_Sort ii' []) his
    have hzero : ∀ is' ∈ cur.states 0, is'.position = 0 := by
      intro is' his'
      have hposts : ∃ p, p ≠ [] ∧ ∃ is0, Posts x.allItems p 0 is0 ∧ is' = is0.shift 0 := by
        rcases hcur with rfl | rfl
        · obtain h | ⟨is0, hposts, rfl⟩ :=
            (mem_states_searchByVtoken (holds_table x.storable) (isWord_of_mem_groups hz)).mp his'
          · cases h
          · exact ⟨z.2, cover_ne_nil hz, is0, hposts, rfl⟩
        · obtain h | ⟨p, hp, is0, hposts, rfl⟩ :=
            (mem_states_searchByPrefixVtoken (holds_table x.storable) (isWord_of_mem_groups hz)).mp his'
          · cases h
          · exact ⟨p, fun h => cover_ne_nil hz (prefix_nil.mp (h ▸ hp)), is0, hposts, rfl⟩
      obtain ⟨p, hp, is0, hposts, rfl⟩ := hposts
      obtain ⟨doc, hdoc, -, -, hg⟩ := (posts_iff_group x.short hp).mp hposts
      rw [mem_singleton.mp hdoc] at hg
      have h0 := (eq_of_mem_groups hgroup hg).1
      show (is0.position + 0) % 2 ^ 16 = 0
      omega
    rw [states_intersect] at hkept
    obtain ⟨-, hmem | hmem⟩ := mem_intersectStates (ascending_Sort _ _ _) (ascending_Sort _ _ _) hkept
    · have := hzero _ (mem_states_Sort.mp hmem).2
      change is.position + z.1 % 2 ^ 16 = 0 at this
      omega
    · have := hzero _ (mem_states_Sort.mp hmem).2
      change (is.position + z.1 % 2 ^ 16) % 2 ^ 16 = 0 at this
      omega

/-- The groups of a dictionary fit into items. -/
def Analyzer.Plain (a : Analyzer) : Prop :=
  ∀ g, (a.group? g).isSome → txSuffix ∉ vtoken g ∧ (vtoken g).length < 2 ^ 15

/-- **Phrase search misses nothing exactly if the dictionary is closed**: for every dictionary, the phrases are found in
every index of lines that were cut by it and can be stored if and only if dropping the first word of a group gives a
group. -/
theorem finds_iff_closed {d : Option Dictionary} (hplain : (analyzerOf d).Plain) :
    (∀ x : TextIndex, x.dictionary = d → x.Short → x.Storable → ∀ phrase : Log, phrase.words ≠ [] → ∀ sids,
      x.Finds phrase sids) ↔ (analyzerOf d).Closed := by
  constructor
  · intro h g hwords hthree hgroup
    by_contra htail
    obtain ⟨log, hlog⟩ := exists_log hwords
    obtain ⟨phrase, hphrase⟩ := exists_log fun w hw => hwords w (mem_of_mem_tail hw)
    subst hlog
    have hlen : log.words.length ≤ 2 ^ 6 := (group?_fits (Option.some_get hgroup).symm).2
    have hne : phrase.words ≠ [] := by
      refine ne_nil_of_length_pos ?_
      rw [hphrase, length_tail]
      omega
    have hstore := storable_oneLine hgroup (ne_nil_of_length_pos (by omega)) (hplain _ hgroup).1 (hplain _ hgroup).2
    refine not_finds_tail hstore hphrase hthree hgroup (hphrase ▸ htail) (h _ rfl ?_ hstore phrase hne [])
    exact (oneRow d log (by omega) hstore).short
  · rintro hclosed x rfl hshort hstore phrase hne sids
    exact finds_of_closed hshort hstore hclosed hne sids

end GeminiTS.Text
