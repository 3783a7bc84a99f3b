import GeminiTS.Text.Search

/-!
# PhraseReal — phrase search reports only real matches

A number found while resolving another one belongs to a group that ends in the group of that one, not in the words that
are searched; its offset is used as if it did.

* `PhraseIndex.real_iff` — when the postings of the groups of a phrase are real, and `MatchPhrase` returns only rows
  with the phrase.
-/

namespace GeminiTS.Text

open Lib List

/-- An index with one line for each row, of fewer than `2 ^ 16` words, whose items can be stored. -/
structure PhraseIndex extends TextIndex where
  short : toTextIndex.Short
  storable : toTextIndex.Storable
  rows : ∀ doc ∈ toTextIndex.docs, ∀ doc' ∈ toTextIndex.docs, doc.sid = doc'.sid → doc.rowId = doc'.rowId → doc = doc'

namespace PhraseIndex

variable (x : PhraseIndex)

/-- The words stand at the position of a posting in the line of its row. -/
def Real (ws : List Bytes) (sid : UInt64) (is : InvertState) : Prop :=
  ∃ doc ∈ x.docs, doc.sid = sid ∧ doc.rowId = is.rowId ∧ ws <+: doc.log.words.drop is.position

/-- A recorded group that holds the words behind its first one, and that ends a longer recorded group, begins with the
words. -/
def Clear (ws : List Bytes) : Prop := ∀ g h, x.Records g → x.Records h → ∀ i, 1 ≤ i → i < h.length → g = h.drop i →
    ∀ o, 1 ≤ o → o < g.length → ws <+: g.drop o → ws <+: g

/-- Every posting that the two searches with numbers find for the words is real, in every order of their loops. -/
def FindsReal (ws : List Bytes) : Prop :=
  ∀ r, SearchInvertByVtokenAndId x.analyzer x.table ws r ∨ SearchInvertByPrefixVtokenAndId x.analyzer x.table ws r →
    ∀ sid, ∀ is ∈ r.states sid, x.Real ws sid is

variable {x} {ws p : List Bytes} {sid : UInt64} {is : InvertState}

/-! ### Postings of items -/

/-- Behind an offset in the group stand the words that follow there. -/
theorem real_shift (hp : p ≠ []) (h : Posts x.allItems p sid is) {i : ℕ} (hi : i < p.length) (hws : ws <+: p.drop i) :
    x.Real ws sid (is.shift i) := by
  obtain ⟨doc, hdoc, hsid, hrow, hj⟩ := (posts_iff_group x.short hp).mp h
  have hpre := prefix_drop_of_mem hj
  have hlen := hpre.length_le
  have hshort := x.short doc hdoc
  rw [length_drop] at hlen
  refine ⟨doc, hdoc, hsid.symm, hrow, ?_⟩
  change ws <+: doc.log.words.drop ((is.position + i) % 2 ^ 16)
  rw [Nat.mod_eq_of_lt (by omega), ← drop_drop]
  exact hws.trans (hpre.drop i)

/-! ### Resolving the numbers -/

/-- The postings are real, and the numbers stand for groups that hold the words at their offset. -/
structure Good (x : PhraseIndex) (ws : List Bytes) (ii : InvertIndex) : Prop where
  real : ∀ sid, ∀ is ∈ ii.states sid, x.Real ws sid is
  ids : ∀ n ∈ ii.ids, ∃ g, x.Records g ∧ ∃ i, 1 ≤ i ∧ i < g.length ∧ ws <+: g.drop i ∧
    n = assembleId (x.analyzer.idOf g) i

section Words

variable (hws : ∀ w ∈ ws, IsWord w) (hne : ws ≠ [])

include hws hne

theorem good_searchByPrefix : Good x ws (searchInvertByPrefixVtoken x.table ws) where
  real := by
    intro sid is his
    rcases (mem_states_searchByPrefixVtoken (holds_table x.storable) hws).mp his with h | ⟨p, hp, is0, hposts, rfl⟩
    · cases h
    · obtain ⟨w, ws, rfl⟩ := exists_cons_of_ne_nil hne
      obtain ⟨t, rfl⟩ := hp
      exact real_shift (cons_ne_nil _ _) hposts (Nat.succ_pos _) (prefix_append _ _)
  ids := by
    intro n hn
    rcases (mem_ids_searchByPrefixVtoken (holds_table x.storable) hws).mp hn with h | ⟨p, hp, hids⟩
    · cases h
    · obtain ⟨g, hg, i, hi, hlt, rfl, hn⟩ := (ids_allItems (fun hnil => hne (prefix_nil.mp (hnil ▸ hp)))).mp hids
      exact ⟨g, hg, i, hi, hlt, hp, hn⟩

theorem good_searchByVtoken : Good x ws (searchInvertByVtoken x.table ws) where
  real := by
    intro sid is his
    rcases (mem_states_searchByVtoken (holds_table x.storable) hws).mp his with h | ⟨is0, hposts, rfl⟩
    · cases h
    · exact real_shift hne hposts (length_pos_iff.mpr hne) (prefix_refl _)
  ids := by
    intro n hn
    rcases (mem_ids_searchByVtoken (holds_table x.storable) hws).mp hn with h | hids
    · cases h
    · obtain ⟨g, hg, i, hi, hlt, heq, hn⟩ := (ids_allItems hne).mp hids
      exact ⟨g, hg, i, hi, hlt, heq ▸ prefix_refl _, hn⟩

omit hws hne in
theorem good_visitId (hclear : x.Clear ws) {ii : InvertIndex} (h : Good x ws ii) {n : ℕ} (hn : n ∈ ii.ids) :
    Good x ws (visitId x.analyzer x.table n ii) := by
  obtain ⟨g, hg, i, hi, hlt, hpre, rfl⟩ := h.ids n hn
  have hgw := isWord_of_records hg
  rw [visitId_assembleId hg hi hlt]
  constructor
  · intro sid is his
    rcases (mem_states_searchByVtoken (holds_table x.storable) hgw).mp his with his | ⟨is0, hposts, rfl⟩
    · exact h.real sid is his
    · exact real_shift (ne_nil_of_records hg) hposts hlt hpre
  · intro m hm
    rcases (mem_ids_searchByVtoken (holds_table x.storable) hgw).mp hm with hm | hids
    · exact h.ids m hm
    · -- The number of a longer group: the words have to be at the front of this one.
      obtain ⟨g', hg', i', hi', hlt', heq, rfl⟩ := (ids_allItems (ne_nil_of_records hg)).mp hids
      refine ⟨g', hg', i', hi', hlt', ?_, rfl⟩
      rw [← heq]
      exact hclear g g' hg hg' i' hi' hlt' heq i hi hlt hpre

theorem real_of_clear (hclear : x.Clear ws) : x.FindsReal ws := by
  intro r hr
  have hgood : Good x ws r := by
    rcases hr with hr | hr
    · exact hr.invariant (good_searchByVtoken hws hne) fun ii n h hn => good_visitId hclear h hn
    · exact hr.invariant (good_searchByPrefix hws hne) fun ii n h hn => good_visitId hclear h hn
  exact hgood.real

end Words

theorem clear_of_real (hws : ∀ w ∈ ws, IsWord w) (h : x.FindsReal ws) : x.Clear ws := by
  intro g g' hg hg' i hi hlt heq o ho holt hpre
  have hgw := isWord_of_records hg
  obtain ⟨doc, hdoc, j, hj⟩ := hg'
  have hg' : x.Records g' := ⟨doc, hdoc, j, hj⟩
  -- The loop visits the number of `g`, and then that of the longer group.
  have hnum : assembleId (x.analyzer.idOf g) o ∈ (searchInvertByPrefixVtoken x.table ws).ids := by
    refine (mem_ids_searchByPrefixVtoken (holds_table x.storable) hws).mpr (.inr ⟨_, hpre, ?_⟩)
    exact (ids_allItems (ne_nil_of_length_pos (by rw [length_drop]; omega))).mpr ⟨g, hg, o, ho, holt, rfl, rfl⟩
  have hadd (ii : InvertIndex) : assembleId (x.analyzer.idOf g') i ∈
      (visitId x.analyzer x.table (assembleId (x.analyzer.idOf g) o) ii).ids := by
    rw [visitId_assembleId hg ho holt]
    refine (mem_ids_searchByVtoken (holds_table x.storable) hgw).mpr (.inr ?_)
    exact (ids_allItems (ne_nil_of_records hg)).mpr ⟨g', hg', i, hi, hlt, heq, rfl⟩
  have hposts : Posts x.allItems g' doc.sid ⟨doc.rowId, j⟩ :=
    (posts_iff_group x.short (ne_nil_of_records hg')).mpr ⟨doc, hdoc, rfl, rfl, hj⟩
  have hvisit (ii : InvertIndex) : InvertState.shift i ⟨doc.rowId, j⟩ ∈
      (visitId x.analyzer x.table (assembleId (x.analyzer.idOf g') i) ii).states doc.sid := by
    rw [visitId_assembleId hg' hi hlt]
    exact (mem_states_searchByVtoken (holds_table x.storable) (isWord_of_records hg')).mpr (.inr ⟨_, hposts, rfl⟩)
  obtain ⟨r, hr, his⟩ := Ranges.exists_visit (fun n m ii => mem_ids_visitId _ _ n m ii)
    (searchInvertByPrefixVtoken x.table ws).ids_nodup hnum hadd
    hvisit
    fun m ii his => mem_states_visitId _ _ m ii his
  -- At its position stands `g`; so the words begin it.
  obtain ⟨doc', hdoc', hsid, hrow, hreal⟩ := h r (.inr hr) _ _ his
  obtain rfl := x.rows doc' hdoc' doc hdoc hsid hrow
  have hstand := prefix_drop_of_mem hj
  have hlen := hstand.length_le
  have hshort := x.short doc' hdoc'
  rw [length_drop] at hlen
  change ws <+: doc'.log.words.drop ((j + i) % 2 ^ 16) at hreal
  rw [Nat.mod_eq_of_lt (by omega), ← drop_drop] at hreal
  refine prefix_of_prefix_length_le hreal (heq ▸ hstand.drop i) ?_
  have := hpre.length_le
  rw [length_drop] at this
  omega

/-! ### Phrases -/

/-- The rows of the results of `MatchPhrase` hold the phrase. -/
def MatchesReal (x : PhraseIndex) (phrase : Log) : Prop :=
  ∀ sids r, MatchPhrase x.analyzer x.table phrase sids (some r) → ∀ sid, ∀ is ∈ r.states sid,
    ∃ doc ∈ x.docs, doc.sid = sid ∧ doc.rowId = is.rowId ∧ phrase.words <:+: doc.log.words

/-- The group as it is searched. -/
def searched (a : Analyzer) (y : ℕ × List Bytes) : VToken := ⟨y.2, a.idOf y.2, y.1 % 2 ^ 16⟩

section Phrase

variable {doc : Doc} (hdoc : doc ∈ x.docs) (hrow : doc.rowId = is.rowId) {sids : List UInt64}

include hdoc hrow

variable {pre cur : InvertIndex}

theorem stands_of_mem_intersect {g : List Bytes} {j : ℕ} (hpre : Ascending (pre.states doc.sid))
    (hcur : ∀ is ∈ cur.states doc.sid, x.Real g doc.sid is) (hlt : is.position + j < 2 ^ 16)
    (h : is ∈ (IntersectInvertByDistance pre (cur.Sort sids) (j % 2 ^ 16)).states doc.sid) :
    g <+: doc.log.words.drop (is.position + j) := by
  have hj : j % 2 ^ 16 = j := Nat.mod_eq_of_lt (by omega)
  rw [states_intersect, hj] at h
  obtain ⟨-, hmem⟩ := mem_intersectStates hpre (ascending_Sort _ _ _) h
  rw [Nat.mod_eq_of_lt hlt, or_self] at hmem
  obtain ⟨doc', hdoc', hsid, hrow', hreal⟩ := hcur _ (mem_states_Sort.mp hmem).2
  obtain rfl := x.rows doc' hdoc' doc hdoc hsid (hrow'.trans hrow.symm)
  exact hreal

variable (sids) in
omit hdoc hrow in
theorem ascending_intersect (hpre : ∀ sid, Ascending (pre.states sid)) (cur : InvertIndex) (dis : ℕ) (sid : UInt64) :
    Ascending ((IntersectInvertByDistance pre (cur.Sort sids) dis).states sid) := by
  rw [states_intersect]
  exact ascending_intersectStates (hpre sid) (ascending_Sort _ _ _)

omit hdoc hrow in
theorem mem_of_mem_intersect {dis : ℕ} (hpre : Ascending (pre.states sid))
    (h : is ∈ (IntersectInvertByDistance pre (cur.Sort sids) dis).states sid) : is ∈ pre.states sid := by
  rw [states_intersect] at h
  exact (mem_intersectStates hpre (ascending_Sort _ _ _) h).1

omit hdoc hrow in
theorem mem_of_mem_intersectGroups {T : Table} {vs : List VToken} (hpre : ∀ sid, Ascending (pre.states sid))
    (h : is ∈ (intersectGroups T sids vs pre).states sid) : is ∈ pre.states sid := by
  induction vs generalizing pre with
  | nil => exact h
  | cons v vs ih =>
    cases vs with
    | nil => exact mem_of_mem_intersect (hpre sid) h
    | cons v' vs => exact mem_of_mem_intersect (hpre sid) (ih (ascending_intersect sids hpre _ _) h)

/-- The groups behind the first one stand at their distance from it. -/
theorem stands_of_mem_intersectGroups {rest : List (ℕ × List Bytes)} {last : ℕ × List Bytes}
    (hchain : (last :: rest).IsChain fun a b => b.1 ≤ a.1 + a.2.length) (hne : last.2 ≠ [])
    (hlast : last.2 <+: doc.log.words.drop (is.position + last.1)) (hwords : ∀ y ∈ rest, y.2 ≠ [] ∧ ∀ w ∈ y.2, IsWord w)
    (hpre : ∀ sid, Ascending (pre.states sid))
    (h : is ∈ (intersectGroups x.table sids (rest.map (searched x.analyzer)) pre).states doc.sid) :
    ∀ y ∈ rest, y.2 <+: doc.log.words.drop (is.position + y.1) := by
  induction rest generalizing last pre with
  | nil => exact fun y hy => absurd hy not_mem_nil
  | cons z rest ih =>
    obtain ⟨hle, hchain⟩ := isChain_cons_cons.mp hchain
    obtain ⟨hzne, hzw⟩ := hwords z mem_cons_self
    -- The group starts not behind the end of the one before, which is in the line.
    have hlt : is.position + z.1 < 2 ^ 16 := by
      have hlen := hlast.length_le
      have hpos := length_pos_iff.mpr hne
      have hshort := x.short doc hdoc
      rw [length_drop] at hlen
      omega
    cases rest with
    | nil =>
      intro y hy
      rw [mem_singleton.mp hy]
      exact stands_of_mem_intersect hdoc hrow (hpre _) ((good_searchByPrefix hzw hzne).real _) hlt h
    | cons z' rest =>
      have hpre' := fun sid => ascending_intersect sids hpre (searchInvertByVtoken x.table z.2) (z.1 % 2 ^ 16) sid
      have hz : z.2 <+: doc.log.words.drop (is.position + z.1) :=
        stands_of_mem_intersect hdoc hrow (hpre _) ((good_searchByVtoken hzw hzne).real _) hlt
          (mem_of_mem_intersectGroups hpre' h)
      intro y hy
      rcases mem_cons.mp hy with rfl | hy
      · exact hz
      · exact ih hchain hzne hz (forall_mem_cons.mp hwords).2 hpre' h y hy

end Phrase

theorem matchesReal_of_clear {phrase : Log} (h : ∀ j g, (j, g) ∈ x.analyzer.groups phrase → x.Clear g) :
    x.MatchesReal phrase := by
  intro sids r hr sid is his
  rw [MatchPhrase, analyze_eq] at hr
  have hwords : ∀ y ∈ x.analyzer.groups phrase, y.2 ≠ [] ∧ ∀ w ∈ y.2, IsWord w :=
    fun y hy => ⟨cover_ne_nil hy, isWord_of_mem_groups hy⟩
  have hchain : (x.analyzer.groups phrase).IsChain fun a b => b.1 ≤ a.1 + a.2.length := isChain_cover
  have hzero : ∀ y ys, x.analyzer.groups phrase = y :: ys → y.1 = 0 := fun y ys => fst_of_cover_eq_cons
  -- It is enough that all groups stand at their distance from one position.
  have hall (doc : Doc) (hdoc : doc ∈ x.docs) (hsid : doc.sid = sid) (hrow : doc.rowId = is.rowId)
      (hstand : ∀ y ∈ x.analyzer.groups phrase, y.2 <+: doc.log.words.drop (is.position + y.1)) :
      ∃ doc ∈ x.docs, doc.sid = sid ∧ doc.rowId = is.rowId ∧ phrase.words <:+: doc.log.words := by
    refine ⟨doc, hdoc, hsid, hrow, ?_⟩
    have hpre := prefix_of_cover fun j g hmem => hstand (j, g) hmem
    exact hpre.isInfix.trans (drop_suffix _ _).isInfix
  generalize hg : x.analyzer.groups phrase = groups at h hr hchain hwords hall hzero
  cases groups with
  | nil => cases hr
  | cons y ys =>
    obtain ⟨hyne, hyw⟩ := hwords y mem_cons_self
    have hy0 := hzero y ys rfl
    have hreal := real_of_clear hyw hyne (h y.1 y.2 mem_cons_self)
    cases ys with
    | nil =>
      obtain ⟨ii, hii, heq⟩ := hr
      cases heq
      obtain ⟨doc, hdoc, hsid, hrow, hstand⟩ := hreal ii (.inr hii) sid is (mem_states_Sort.mp his).2
      refine hall doc hdoc hsid hrow fun z hz => ?_
      rw [mem_singleton.mp hz, hy0]
      exact hstand
    | cons z zs =>
      obtain ⟨ii, hii, heq⟩ := hr
      cases heq
      have hfirst := mem_of_mem_intersectGroups (ascending_Sort ii sids) his
      obtain ⟨doc, hdoc, rfl, hrow, hstand⟩ := hreal ii (.inl hii) sid is (mem_states_Sort.mp hfirst).2
      rw [← Nat.add_zero is.position, ← hy0] at hstand
      have hrest := stands_of_mem_intersectGroups hdoc hrow hchain hyne hstand
        (forall_mem_cons.mp hwords).2 (ascending_Sort ii sids) his
      refine hall doc hdoc rfl hrow fun v hv => ?_
      rcases mem_cons.mp hv with rfl | hv
      · exact hstand
      · exact hrest v hv

end PhraseIndex

end GeminiTS.Text
