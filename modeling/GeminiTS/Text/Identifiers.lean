import GeminiTS.Text.Dictionary

/-!
# Identifiers — which word groups keep a number

`InsertToDictionary` adds the words of a text to the dictionary and `AssignId` numbers its nodes
(`engine/index/clv/analyzer.go`). The children of a node are searched by bisection while they still stand in the order
of their insertion, so a word can get a second node beside its first. The maps keep one node of a word, and the groups
below the other ones lose their numbers.

* `mem_paths_dictionary` — the paths of the dictionary are the beginnings of the inserted groups;
* `mapped_iff_covered` — when the maps have all of them.
-/

namespace GeminiTS.Text

open Lib List Forest

variable {p : List Bytes} {t c : DicNodes} {token : Bytes}

/-! ### The paths of the dictionary -/

/-- The words of a text (`strings.Split`). -/
def splitTokens (tokens : Bytes) : List Bytes := tokens.splitOn 0x20

def insertToDictionary (dictionary : DicNodes) (tokens : Bytes) : DicNodes :=
  insertToDic (splitTokens tokens) dictionary

/-- The dictionary after the insertion of some texts, in their order. -/
def dictionary (texts : List Bytes) : DicNodes := texts.foldl insertToDictionary .nil

theorem mem_paths_appendChild :
    p ∈ (appendChild token c t).paths ↔ p ∈ t.paths ∨ p = [token] ∨ p ∈ c.paths.map (token :: ·) := by
  induction t with
  | nil =>
    rw [appendChild]
    simp [paths, items]
  | cons k v c n _ ih =>
    rw [appendChild, mem_paths_cons, mem_paths_cons]
    tauto

variable {v : ℕ} (id : ℕ)

theorem mem_paths_modifyChild {f : DicNodes → DicNodes} {n : ℕ} (hn : t.nodes[n]? = some (token, v, c))
    (hf : c.paths ⊆ (f c).paths) :
    p ∈ (modifyChild f n t).paths ↔ p ∈ t.paths ∨ p = [token] ∨ p ∈ (f c).paths.map (token :: ·) := by
  induction t generalizing n with
  | nil => cases hn
  | cons k w c' next _ ih =>
    cases n with
    | zero =>
      cases hn
      rw [modifyChild, mem_paths_cons, mem_paths_cons]
      have hold : p ∈ c.paths.map (token :: ·) → p ∈ (f c).paths.map (token :: ·) := fun h => map_subset _ hf h
      tauto
    | succ n =>
      rw [modifyChild, mem_paths_cons, mem_paths_cons, ih hn]
      tauto

theorem mem_paths_insertToDic (ws : List Bytes) : p ∈ (insertToDic ws t).paths ↔ p ∈ t.paths ∨ p ≠ [] ∧ p <+: ws := by
  induction ws generalizing t p with
  | nil => simp [insertToDic]
  | cons w ws ih =>
    -- The beginnings are the word and, behind it, those of the other words.
    have hbegins {c : DicNodes} (hc : ∀ q ∈ c.paths, w :: q ∈ t.paths) :
        (p ∈ t.paths ∨ p = [w] ∨ p ∈ (insertToDic ws c).paths.map (w :: ·)) ↔ p ∈ t.paths ∨ p ≠ [] ∧ p <+: w :: ws := by
      cases p with
      | nil => simp
      | cons k p =>
        simp only [mem_map, ih, cons_prefix_cons, List.cons.injEq, ne_eq, reduceCtorEq, not_false_eq_true, true_and]
        constructor
        · rintro (h | ⟨rfl, rfl⟩ | ⟨q, h | ⟨-, h⟩, rfl, rfl⟩)
          · exact .inl h
          · exact .inr ⟨rfl, nil_prefix⟩
          · exact .inl (hc q h)
          · exact .inr ⟨rfl, h⟩
        · rintro (h | ⟨rfl, h⟩)
          · exact .inl h
          · by_cases hp : p = []
            · exact .inr (.inl ⟨rfl, hp⟩)
            · exact .inr (.inr ⟨p, .inr ⟨hp, h⟩, rfl, rfl⟩)
    rw [insertToDic]
    cases hfind : findNodeByToken t w with
    | none =>
      refine mem_paths_appendChild.trans (hbegins fun q hq => ?_)
      cases hq
    | some n =>
      rw [findNodeByToken] at hfind
      split_ifs at hfind with h
      obtain ⟨⟨k, v, c⟩, hn, hk⟩ := (Option.any_eq_true _ _).mp h
      obtain rfl := Option.some.inj hfind
      obtain rfl : k = w := of_decide_eq_true hk
      exact (mem_paths_modifyChild hn fun q hq => ih.mpr (.inl hq)).trans
        (hbegins fun q hq => mem_paths_of_mem_nodes (mem_of_getElem? hn) hq)

/-- **The paths of the dictionary are the beginnings of the inserted groups.** -/
theorem mem_paths_dictionary (texts : List Bytes) :
    p ∈ (dictionary texts).paths ↔ p ≠ [] ∧ ∃ tokens ∈ texts, p <+: splitTokens tokens := by
  have hfold : ∀ t : DicNodes, p ∈ (texts.foldl insertToDictionary t).paths ↔
      p ∈ t.paths ∨ p ≠ [] ∧ ∃ tokens ∈ texts, p <+: splitTokens tokens := by
    induction texts with
    | nil => simp
    | cons tokens texts ih =>
      intro t
      rw [foldl_cons, ih, insertToDictionary, mem_paths_insertToDic, exists_mem_cons_iff]
      tauto
  rw [dictionary, hfold, or_iff_right (fun h => by cases h)]

theorem mem_paths_insertSorted : p ∈ (insertSorted token v c t).paths ↔ p ∈ (cons token v c t).paths := by
  induction t with
  | nil => exact Iff.rfl
  | cons k w c' n _ ih =>
    rw [insertSorted]
    split_ifs with h
    · rw [mem_paths_cons, ih, mem_paths_cons, mem_paths_cons, mem_paths_cons]
      tauto
    · exact Iff.rfl

theorem mem_paths_sortDic : p ∈ (sortDic t).paths ↔ p ∈ t.paths := by
  induction t generalizing p with
  | nil => exact Iff.rfl
  | cons k v c n ihc ihn => rw [sortDic, mem_paths_insertSorted, mem_paths_cons, mem_paths_cons, ihn,
      mem_map, mem_map, exists_congr fun q => and_congr_left' ihc]

theorem paths_assignId (t m : DicNodes) : (assignId id t m).2.1.paths = t.paths := by
  induction t generalizing id m with
  | nil => rfl
  | cons k v c n ihc ihn =>
    change (cons k _ (assignId id c .nil).2.1 (assignId _ n _).2.1).paths = _
    rw [paths_cons, paths_cons, ihc, ihn]

/-! ### The paths of the maps -/

theorem mem_paths_of_val? {id r : ℕ} (hp : p ≠ []) (h : (val? p (r, (assignId id t .nil).2.2)).isSome) :
    p ∈ t.paths := by
  obtain ⟨n, hn⟩ := Option.isSome_iff_exists.mp h
  rcases mem_items_of_dicMap id t .nil hp hn with hmem | hnil
  · rw [← paths_assignId id t .nil]
    exact mem_map_of_mem hmem
  · obtain ⟨k, p, rfl⟩ := exists_cons_of_ne_nil hp
    cases hnil

/-- A node of the maps is the last one of its word, or was there before. -/
theorem get?_assignId (t m : DicNodes) (k : Bytes) :
    (assignId id t m).2.2.get? k = ((assignId id t .nil).2.2.get? k).or (m.get? k) := by
  induction t generalizing id m with
  | nil => rfl
  | cons token v c n _ ih =>
    change (assignId _ n _).2.2.get? k = ((assignId _ n _).2.2.get? k).or _
    rw [ih, ih _ (.cons token _ _ .nil), Option.or_assoc]
    congr 1
    rw [get?, get?]
    split_ifs <;> rfl

theorem isSome_get?_assignId (t : DicNodes) (k : Bytes) : ((assignId id t .nil).2.2.get? k).isSome ↔ k ∈ t.keys := by
  induction t generalizing id with
  | nil => simp [assignId, get?, Forest.keys]
  | cons token v c n _ ih =>
    change ((assignId _ n _).2.2.get? k).isSome ↔ _
    rw [get?_assignId, Option.isSome_or, Bool.or_eq_true, ih, Forest.keys, get?]
    split_ifs with h
    · simp [h]
    · simp [Ne.symm h, get?]

/-- The groups below a node that gives way to a later one of its word are also below that one. -/
def covered : DicNodes → Bool
  | .nil => true
  | .cons token _ child next =>
    covered next && if token ∈ next.keys then child.paths.all (token :: · ∈ next.paths) else covered child

theorem exists_cons_of_mem_paths (h : p ∈ t.paths) : ∃ k ∈ t.keys, ∃ q, p = k :: q := by
  induction t with
  | nil => cases h
  | cons token v c n _ ih =>
    rcases mem_paths_cons.mp h with h | h | h
    · exact ⟨token, mem_cons_self, [], h⟩
    · obtain ⟨q, -, rfl⟩ := mem_map.mp h
      exact ⟨token, mem_cons_self, q, rfl⟩
    · obtain ⟨k, hk, hq⟩ := ih h
      exact ⟨k, mem_cons_of_mem _ hk, hq⟩

/-- **The maps have all paths exactly when the nodes that give way are covered.** -/
theorem mapped_iff_covered (r : ℕ) (t : DicNodes) :
    (∀ p ∈ t.paths, (val? p (r, (assignId id t .nil).2.2)).isSome) ↔ covered t := by
  induction t generalizing id r with
  | nil => exact iff_of_true (fun p hp => by cases hp) rfl
  | cons token v c n ihc ihn =>
    let x := assignId id c .nil
    let m := (assignId (x.1 + 1) n (.cons token x.1 x.2.2 .nil)).2.2
    let m' := (assignId (x.1 + 1) n .nil).2.2
    change (∀ p ∈ (cons token v c n).paths, (val? p (r, m)).isSome) ↔ _
    have hget (k : Bytes) : m.get? k = (m'.get? k).or (if token = k then some (x.1, x.2.2) else none) :=
      get?_assignId _ _ _ _
    have hkeys (k : Bytes) : (m'.get? k).isSome ↔ k ∈ n.keys := isSome_get?_assignId _ _ _
    -- The maps of the later nodes answer for their words.
    have hval {k : Bytes} (hk : k ∈ n.keys) (q : List Bytes) : val? (k :: q) (r, m) = val? (k :: q) (r, m') := by
      obtain ⟨y, hy⟩ := Option.isSome_iff_exists.mp ((hkeys k).mpr hk)
      rw [val?_cons, val?_cons, hget, hy]
      rfl
    have hnext : (∀ p ∈ n.paths, (val? p (r, m)).isSome) ↔ covered n := by
      rw [← ihn (x.1 + 1) r]
      refine forall₂_congr fun p hp => ?_
      obtain ⟨k, hk, q, rfl⟩ := exists_cons_of_mem_paths hp
      rw [hval hk]
    rw [paths_cons, forall_mem_append, forall_mem_cons, forall_mem_map, hnext, covered, Bool.and_eq_true]
    by_cases htoken : token ∈ n.keys
    · rw [if_pos htoken, all_eq_true]
      constructor
      · rintro ⟨⟨-, hc⟩, hn⟩
        refine ⟨hn, fun q hq => decide_eq_true ?_⟩
        have hq' := hc q hq
        rw [hval htoken] at hq'
        exact mem_paths_of_val? (cons_ne_nil _ _) hq'
      · rintro ⟨hn, hc⟩
        refine ⟨⟨?_, fun q hq => hnext.mpr hn _ (of_decide_eq_true (hc q hq))⟩, hn⟩
        obtain ⟨y, hy⟩ := Option.isSome_iff_exists.mp ((hkeys token).mpr htoken)
        rw [hval htoken, val?_cons, hy]
        rfl
    · have hchild (q : List Bytes) : val? (token :: q) (r, m) = val? q (x.1, x.2.2) := by
        rw [val?_cons, hget, Option.not_isSome_iff_eq_none.mp (mt (hkeys token).mp htoken), if_pos rfl]
        rfl
      rw [if_neg htoken, ← ihc id x.1]
      simp only [hchild]
      exact ⟨fun h => ⟨h.2, h.1.2⟩, fun h => ⟨⟨rfl, h.2⟩, h.1⟩⟩

/-! ### The groups and their identifiers -/

/-- The analyzer of some inserted texts. -/
def assigned (texts : List Bytes) : Analyzer := .ofDic (dictionary texts)

/-- A beginning of an inserted group. -/
def Inserted (texts : List Bytes) (p : List Bytes) : Prop := p ≠ [] ∧ ∃ tokens ∈ texts, p <+: splitTokens tokens

/-- The identifiers name their groups: every beginning of an inserted group has one, the longest one at the head of
some words is found with its identifier, and the identifier gives back the words. -/
structure Named (texts : List Bytes) : Prop where
  identified : ∀ p, Inserted texts p → ((assigned texts).group? p).isSome
  longest : ∀ w ws, let r := findLongestTokens (assigned texts) (w :: ws)
    (∀ p, Inserted texts p → p <+: w :: ws → p.length ≤ r.1.length) ∧ r.1 <+: w :: ws ∧
      (Inserted texts r.1 ∧ (assigned texts).group? r.1 = some r.2 ∨
        r = ([w], 0) ∧ ∀ p, Inserted texts p → ¬ p <+: w :: ws)
  words : ∀ p n, Inserted texts p → (assigned texts).group? p = some n → findVtokenByID (assigned texts) n = vtoken p

/-- **The identifiers name their groups exactly when no node of the dictionary gives way to a later one of its word
that lacks one of its groups.** -/
theorem named_iff (texts : List Bytes) : Named texts ↔ covered (sortDic (dictionary texts)) := by
  have hpaths (p : List Bytes) : Inserted texts p ↔ p ∈ (sortDic (dictionary texts)).paths := by
    rw [mem_paths_sortDic, mem_paths_dictionary, Inserted]
  rw [← mapped_iff_covered 1 0]
  constructor
  · exact fun h p hp => h.identified p ((hpaths p).mpr hp)
  · intro hmapped
    have hgroup (p : List Bytes) (hp : p ≠ []) : ((assigned texts).group? p).isSome ↔ Inserted texts p := by
      rw [hpaths]
      exact ⟨mem_paths_of_val? hp, hmapped p⟩
    refine ⟨fun p hp => (hgroup p hp.1).mpr hp, fun w ws => ?_, fun p n hp hn => findVtokenByID_of_group hp.1 hn⟩
    have hlongest (p : List Bytes) (hp : Inserted texts p) (h : p <+: w :: ws) :=
      le_length_longestIn h ((hgroup p hp.1).mpr hp)
    rw [findLongestTokens_of_some rfl, orFirst]
    split_ifs with hnil
    · rw [hnil] at hlongest
      have hnone (p : List Bytes) (hp : Inserted texts p) : ¬ p <+: w :: ws :=
        fun h => hp.1 (length_eq_zero_iff.mp (Nat.le_zero.mp (hlongest p hp h)))
      exact ⟨fun p hp h => absurd h (hnone p hp), cons_prefix_cons.mpr ⟨rfl, nil_prefix⟩, .inr ⟨rfl, hnone⟩⟩
    · have hval := val?_longestIn 0 (w :: ws) (assignId 1 (sortDic (dictionary texts)) .nil).2.2
      refine ⟨hlongest, longestIn_prefix _ _ _, .inl ⟨(hgroup _ hnil).mp ?_, hval⟩⟩
      exact Option.isSome_of_eq_some hval

/-- Behind "b" and "a" the second "b" is not found by bisection, and "b y" has no identifier. -/
theorem not_named : ¬ Named [[0x62, 0x20, 0x78], [0x61], [0x62, 0x20, 0x79]] := by
  intro h
  have hid := h.identified [[0x62], [0x79]] ⟨cons_ne_nil _ _, [0x62, 0x20, 0x79], by decide, by decide +kernel⟩
  revert hid
  decide +kernel

-- A second node without groups of its own does no harm.
example : covered (sortDic (dictionary [[0x62, 0x20, 0x79], [0x61], [0x62]])) := by decide +kernel

end GeminiTS.Text
