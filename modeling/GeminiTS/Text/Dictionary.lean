import GeminiTS.Lib.Cover
import GeminiTS.Lib.Forest
import GeminiTS.Lib.SortSearch
import GeminiTS.Text.Words

/-!
# Dictionary — the learned word groups and how a line is cut by them

The analyzer of the text index (`engine/index/clv/analyzer.go`). A dictionary is a tree of words; the paths in it are
the word groups. `AssignId` numbers its nodes, children before their parent, and copies it into nested maps. A line is
cut into the longest groups at its positions, without those that lie in an earlier one.
-/

namespace GeminiTS.Text

open Lib List Forest

/-- The children of a node of the dictionary (`dicNode`) or of its copy (`dicMapNode`): words with their numbers. -/
abbrev DicNodes := Forest Bytes ℕ

/-! ### Building the dictionary -/

/-- `findNodeByToken`: the place of the child with a word, by a binary search for the first word not before it. -/
def findNodeByToken (node : DicNodes) (token : Bytes) : Option ℕ :=
  let n := sortSearch (fun i => node.nodes[i]?.any (token ≤ ·.1)) 0 node.nodes.length
  if node.nodes[n]?.any (·.1 = token) then some n else none

/-- Change the children of the child at a place. -/
def modifyChild (f : DicNodes → DicNodes) : ℕ → DicNodes → DicNodes
  | _, .nil => .nil
  | 0, .cons token id child next => .cons token id (f child) next
  | n + 1, .cons token id child next => .cons token id child (modifyChild f n next)

/-- Append a child. -/
def appendChild (token : Bytes) (child : DicNodes) : DicNodes → DicNodes
  | .nil => .cons token 0 child .nil
  | .cons token' id' child' next => .cons token' id' child' (appendChild token child next)

def insertToDic : List Bytes → DicNodes → DicNodes
  | [], node => node
  | token :: tokens, node =>
    match findNodeByToken node token with
    | some n => modifyChild (insertToDic tokens) n node
    | none => appendChild token (insertToDic tokens .nil) node

/-- One step of the insertion sort. The comparison is `<=`, so a node goes before those of its word that were before
it; here nodes are inserted from the back, behind those of their word. -/
def insertSorted (token : Bytes) (id : ℕ) (child : DicNodes) : DicNodes → DicNodes
  | .nil => .cons token id child .nil
  | .cons token' id' child' next =>
    if token' ≤ token then .cons token' id' child' (insertSorted token id child next)
    else .cons token id child (.cons token' id' child' next)

/-- `Analyzer.sort`. -/
def sortDic : DicNodes → DicNodes
  | .nil => .nil
  | .cons token id child next => insertSorted token id (sortDic child) (sortDic next)

/-- `assignId`: the next free number, the numbered nodes, and the map of the nodes seen so far; a later node of a word
takes the place of an earlier one. -/
def assignId (id : ℕ) : DicNodes → DicNodes → ℕ × DicNodes × DicNodes
  | .nil, dicMap => (id, .nil, dicMap)
  | .cons token _ child next, dicMap =>
    let c := assignId id child .nil
    let n := assignId (c.1 + 1) next (.cons token c.1 c.2.2 dicMap)
    (n.1, .cons token c.1 c.2.1 n.2.1, n.2.2)

structure Analyzer where
  dictionary : DicNodes
  dicMap : Option DicNodes

/-- The analyzer without a dictionary. -/
def newAnalyzer : Analyzer := ⟨.nil, none⟩

/-- `AssignId`, on the dictionary with the inserted groups. -/
def Analyzer.ofDic (dictionary : DicNodes) : Analyzer :=
  let r := assignId 1 (sortDic dictionary) .nil
  ⟨r.2.1, some r.2.2⟩

/-! ### Using it -/

/-- `findNodeById`: the first child whose number is not below. -/
def findNodeById (node : DicNodes) (id : ℕ) : Option (Bytes × ℕ × DicNodes) :=
  node.nodes[sortSearch (fun i => node.nodes[i]?.any (id ≤ ·.2.1)) 0 node.nodes.length]?

/-- The loop of `FindVtokenByID`. -/
def findVtokenLoop (id : ℕ) (node : DicNodes) : Option Bytes :=
  match h : findNodeById node id with
  | none => none
  | some c => if c.2.1 = id then some (c.1 ++ [0x20]) else (findVtokenLoop id c.2.2).map (c.1 ++ 0x20 :: ·)
termination_by sizeOf node
decreasing_by exact Forest.sizeOf_lt_of_mem_nodes (mem_of_getElem? h)

/-- `FindVtokenByID`: the text of the group with a number, empty if there is none. -/
def findVtokenByID (a : Analyzer) (id : ℕ) : Bytes := (findVtokenLoop id a.dictionary).getD []

/-- The loop of `findLongestTokens`: the words as far as the maps know them, and the number of the last one. -/
def longestIn (id : ℕ) : List Bytes → DicNodes → List Bytes × ℕ
  | [], _ => ([], id)
  | token :: tokens, node =>
    match node.get? token with
    | none => ([], id)
    | some child =>
      let r := longestIn child.1 tokens child.2
      (token :: r.1, r.2)

/-- A word that the maps do not know is a group of its own. -/
def orFirst (token : Bytes) (r : List Bytes × ℕ) : List Bytes × ℕ := if r.1 = [] then ([token], 0) else r

/-- `findLongestTokens`: the longest group at the head of the words, and its number. -/
def findLongestTokens (a : Analyzer) : List Bytes → List Bytes × ℕ
  | [] => ([], 0)
  | token :: tokens =>
    match a.dicMap with
    | none => ([token], 0)
    | some node => orFirst token (longestIn 0 (token :: tokens) node)

structure VToken where
  tokens : List Bytes
  id : ℕ
  pos : ℕ
  deriving DecidableEq

/-- The loop of `Analyze`. Positions are 16-bit numbers. -/
def analyzeFrom (a : Analyzer) : (i last : ℕ) → List Bytes → List VToken
  | _, _, [] => []
  | i, last, token :: tokens =>
    let r := findLongestTokens a (token :: tokens)
    if i + r.1.length ≤ last then analyzeFrom a (i + 1) last tokens
    else ⟨r.1, r.2, i % 2 ^ 16⟩ :: analyzeFrom a (i + 1) (i + r.1.length) tokens

def analyze (a : Analyzer) (log : Log) : List VToken := analyzeFrom a 0 0 log.words

/-! ### Numbers and groups -/

/-- The nodes have the numbers from `a` to `b`, children before their parent. -/
def Numbered (a : ℕ) : DicNodes → ℕ → Prop
  | .nil, b => a = b
  | .cons _ id child next, b => Numbered a child id ∧ Numbered (id + 1) next b

variable {log : Log} {b j : ℕ} {nodes : DicNodes} {p : List Bytes} {n : ℕ} (id : ℕ)

theorem numbered_assignId (nodes dicMap : DicNodes) :
    Numbered id (assignId id nodes dicMap).2.1 (assignId id nodes dicMap).1 := by
  induction nodes generalizing id dicMap with
  | nil => exact rfl
  | cons token v child next ihc ihn => exact ⟨ihc id _, ihn _ _⟩

section

variable {a : ℕ} (h : Numbered a nodes b)

include h

theorem Numbered.bounds : a ≤ b ∧ ∀ x ∈ nodes.items, a ≤ x.2 ∧ x.2 < b := by
  induction nodes generalizing a b with
  | nil => exact ⟨le_of_eq h, fun x hx => absurd hx not_mem_nil⟩
  | cons token id child next ihc ihn =>
    obtain ⟨hle, hchild⟩ := ihc h.1
    obtain ⟨hle', hnext⟩ := ihn h.2
    refine ⟨by omega, fun x hx => ?_⟩
    rw [items, cons_append, mem_cons, mem_append] at hx
    rcases hx with rfl | hx | hx
    · exact ⟨hle, by change id < b; omega⟩
    · obtain ⟨y, hy, rfl⟩ := mem_map.mp hx
      have := hchild y hy
      exact ⟨this.1, by change y.2 < b; omega⟩
    · have := hnext x hx
      omega

/-- The child that holds a number is the first one whose number is not below. -/
theorem Numbered.exists_node (hmem : (p, n) ∈ nodes.items) :
    ∃ i token id child, nodes.nodes[i]? = some (token, id, child) ∧
      (∀ i' < i, nodes.nodes[i']?.any (n ≤ ·.2.1) = false) ∧
      (∀ i', i ≤ i' → i' < nodes.nodes.length → nodes.nodes[i']?.any (n ≤ ·.2.1) = true) ∧
      (p = [token] ∧ n = id ∨ n ≠ id ∧ ∃ p', p = token :: p' ∧ (p', n) ∈ child.items) ∧
      ∃ a', Numbered a' child id := by
  induction nodes generalizing a with
  | nil => cases hmem
  | cons token id child next _ ihn =>
    obtain ⟨hchild, hnext⟩ := h
    have hbounds := hnext.bounds
    -- The numbers of the later nodes are not below the first one's.
    have hlater (hn : n ≤ id) : ∀ i' < (cons token id child next).nodes.length,
        (cons token id child next).nodes[i']?.any (n ≤ ·.2.1) = true := by
      have hall : ∀ x ∈ (cons token id child next).nodes, n ≤ x.2.1 := by
        have hge : ∀ {a : ℕ} {t : DicNodes}, Numbered a t b → ∀ x ∈ t.nodes, a ≤ x.2.1 := by
          intro a t
          induction t generalizing a with
          | nil => exact fun _ x hx => absurd hx not_mem_nil
          | cons token id child next _ ih =>
            rintro ⟨hc, hr⟩ x hx
            have hle := hc.bounds.1
            rcases mem_cons.mp hx with rfl | hx
            · exact hle
            · have := ih hr x hx
              omega
        intro x hx
        rcases mem_cons.mp hx with rfl | hx
        · exact hn
        · have := hge hnext x hx
          omega
      intro i' hi'
      rw [getElem?_eq_getElem hi', Option.any_some, decide_eq_true_eq]
      exact hall _ (getElem_mem hi')
    rw [items, cons_append, mem_cons, mem_append] at hmem
    rcases hmem with heq | hmem | hmem
    · obtain ⟨rfl, rfl⟩ := Prod.mk.inj heq
      exact ⟨0, token, n, child, rfl, fun i' hi' => absurd hi' (Nat.not_lt_zero _),
        fun i' _ hi' => hlater (le_refl _) i' hi', .inl ⟨rfl, rfl⟩, a, hchild⟩
    · obtain ⟨⟨p', n'⟩, hy, heq⟩ := mem_map.mp hmem
      obtain ⟨rfl, rfl⟩ := Prod.mk.inj heq
      have hn : n' < id := (hchild.bounds.2 _ hy).2
      exact ⟨0, token, id, child, rfl, fun i' hi' => absurd hi' (Nat.not_lt_zero _),
        fun i' _ hi' => hlater hn.le i' hi', .inr ⟨hn.ne, p', rfl, hy⟩, a, hchild⟩
    · obtain ⟨i, token', id', child', hi, hlow, hhigh, hcase, hnum⟩ := ihn hnext hmem
      have hn : id < n := (hbounds.2 _ hmem).1
      refine ⟨i + 1, token', id', child', hi, ?_, ?_, hcase, hnum⟩
      · rintro (_ | i') hi'
        · change decide (n ≤ id) = false
          exact decide_eq_false (by omega)
        · exact hlow i' (by omega)
      · rintro (_ | i') hle hi'
        · omega
        · exact hhigh i' (by omega) (Nat.lt_of_succ_lt_succ hi')

theorem findVtokenLoop_of_mem (hmem : (p, n) ∈ nodes.items) : findVtokenLoop n nodes = some (vtoken p) := by
  induction p generalizing a b nodes with
  | nil =>
    obtain ⟨i, token, id, child, -, -, -, ⟨hp, -⟩ | ⟨-, p', hp, -⟩, -⟩ := h.exists_node hmem <;> cases hp
  | cons k p ih =>
    obtain ⟨i, token, id, child, hi, hlow, hhigh, hcase, a', hnum⟩ := h.exists_node hmem
    have hfind : findNodeById nodes n = some (token, id, child) := by
      have hlt := (List.getElem?_eq_some_iff.mp hi).1
      rw [findNodeById, sortSearch_eq hlt.le hlow hhigh, hi]
    rw [findVtokenLoop, hfind]
    rcases hcase with ⟨hp, rfl⟩ | ⟨hne, p', hp, hchild⟩
    · obtain ⟨rfl, rfl⟩ := cons.inj hp
      change (if n = n then some (k ++ [0x20]) else _) = _
      rw [if_pos rfl, vtoken_cons]
      rfl
    · obtain ⟨rfl, rfl⟩ := cons.inj hp
      change (if id = n then _ else (findVtokenLoop n child).map (k ++ 0x20 :: ·)) = _
      rw [if_neg (Ne.symm hne), ih hnum hchild, Option.map_some, vtoken_cons]

end

theorem mem_items_of_dicMap (nodes dicMap : DicNodes) (hp : p ≠ []) {r : ℕ}
    (h : val? p (r, (assignId id nodes dicMap).2.2) = some n) :
    (p, n) ∈ (assignId id nodes dicMap).2.1.items ∨ val? p (r, dicMap) = some n := by
  induction nodes generalizing id dicMap p r with
  | nil => exact .inr h
  | cons token v child next ihc ihn =>
    change (p, n) ∈ (cons token (assignId id child .nil).1 (assignId id child .nil).2.1
      (assignId ((assignId id child .nil).1 + 1) next _).2.1).items ∨ _
    rw [items, cons_append, mem_cons, mem_append]
    rcases ihn _ _ hp h with hnext | hold
    · exact .inl (.inr (.inr hnext))
    · obtain ⟨k, p, rfl⟩ := exists_cons_of_ne_nil hp
      rw [val?_cons, get?] at hold
      split_ifs at hold with hk
      · subst hk
        by_cases hnil : p = []
        · subst hnil
          cases hold
          exact .inl (.inl rfl)
        · rcases ihc id .nil hnil hold with hchild | hempty
          · exact .inl (.inr (.inl (mem_map.mpr ⟨_, hchild, rfl⟩)))
          · obtain ⟨k', p, rfl⟩ := exists_cons_of_ne_nil hnil
            cases hempty
      · rw [val?_cons]
        exact .inr hold

/-- The words of a group of the maps. -/
def Analyzer.group? (a : Analyzer) (g : List Bytes) : Option ℕ := a.dicMap.bind fun m => Forest.val? g (0, m)

variable {g : List Bytes} {a : Analyzer}

/-- **A number of the maps gives back the text of its group.** -/
theorem findVtokenByID_of_group {dictionary : DicNodes} (hg : g ≠ [])
    (h : (Analyzer.ofDic dictionary).group? g = some n) : findVtokenByID (Analyzer.ofDic dictionary) n = vtoken g := by
  have hmem := (mem_items_of_dicMap 1 (sortDic dictionary) .nil hg h).resolve_right (by
    obtain ⟨k, g, rfl⟩ := exists_cons_of_ne_nil hg
    intro h
    cases h)
  rw [findVtokenByID]
  rw [show findVtokenLoop n (Analyzer.ofDic dictionary).dictionary = some (vtoken g) from
    findVtokenLoop_of_mem (numbered_assignId 1 _ _) hmem]
  rfl

/-! ### Cutting a line -/

variable (ws : List Bytes) (node : DicNodes)

theorem longestIn_prefix : (longestIn id ws node).1 <+: ws := by
  induction ws generalizing id node with
  | nil => exact nil_prefix
  | cons w ws ih =>
    rw [longestIn]
    cases node.get? w with
    | none => exact nil_prefix
    | some child => exact cons_prefix_cons.mpr ⟨rfl, ih _ _⟩

theorem longestIn_take (n : ℕ) : (longestIn id (ws.take n) node).1 = (longestIn id ws node).1.take n := by
  induction ws generalizing id node n with
  | nil => rw [take_nil, longestIn, take_nil]
  | cons w ws ih =>
    cases n with
    | zero => rfl
    | succ n =>
      rw [take_succ_cons, longestIn, longestIn]
      cases node.get? w with
      | none => rfl
      | some child =>
        change w :: (longestIn child.1 (ws.take n) child.2).1 = (w :: _).take (n + 1)
        rw [ih, take_succ_cons]

theorem val?_longestIn : val? (longestIn id ws node).1 (id, node) = some (longestIn id ws node).2 := by
  induction ws generalizing id node with
  | nil => rfl
  | cons w ws ih =>
    rw [longestIn]
    cases hc : node.get? w with
    | none => rfl
    | some child =>
      rw [val?_cons, hc]
      exact ih child.1 child.2

/-- The longest group is at least as long as any group at the head of the words. -/
theorem le_length_longestIn {id : ℕ} {ws : List Bytes} {node : DicNodes} (hg : g <+: ws)
    (h : (val? g (id, node)).isSome) : g.length ≤ (longestIn id ws node).1.length := by
  induction g generalizing id ws node with
  | nil => exact Nat.zero_le _
  | cons k g ih =>
    obtain ⟨t, rfl⟩ := hg
    rw [val?_cons] at h
    rw [cons_append, longestIn]
    cases hc : node.get? k with
    | none =>
      rw [hc] at h
      cases h
    | some child =>
      rw [hc] at h
      exact Nat.succ_le_succ (ih (prefix_append _ _) h)

theorem findLongestTokens_of_none (h : a.dicMap = none) (w : Bytes) (ws : List Bytes) :
    findLongestTokens a (w :: ws) = ([w], 0) := by
  rw [findLongestTokens, h]

theorem findLongestTokens_of_some {node : DicNodes} (h : a.dicMap = some node) (w : Bytes)
    (ws : List Bytes) : findLongestTokens a (w :: ws) = orFirst w (longestIn 0 (w :: ws) node) := by
  rw [findLongestTokens, h]

theorem findLongestTokens_isPrefix (a : Analyzer) (ws : List Bytes) : (findLongestTokens a ws).1 <+: ws := by
  cases ws with
  | nil => exact nil_prefix
  | cons w ws =>
    have hone : [w] <+: w :: ws := cons_prefix_cons.mpr ⟨rfl, nil_prefix⟩
    cases ha : a.dicMap with
    | none =>
      rw [findLongestTokens_of_none ha]
      exact hone
    | some node =>
      rw [findLongestTokens_of_some ha, orFirst]
      split_ifs with h
      · exact hone
      · exact longestIn_prefix _ _ _

theorem findLongestTokens_ne_nil (a : Analyzer) (w : Bytes) (ws : List Bytes) :
    (findLongestTokens a (w :: ws)).1 ≠ [] := by
  cases ha : a.dicMap with
  | none =>
    rw [findLongestTokens_of_none ha]
    exact cons_ne_nil _ _
  | some node =>
    rw [findLongestTokens_of_some ha, orFirst]
    split_ifs with h
    · exact cons_ne_nil _ _
    · exact h

theorem findLongestTokens_take (a : Analyzer) (ws : List Bytes) (n : ℕ) :
    (findLongestTokens a (ws.take n)).1 = (findLongestTokens a ws).1.take n := by
  cases ws with
  | nil => rw [take_nil, findLongestTokens, take_nil]
  | cons w ws =>
    cases n with
    | zero => rfl
    | succ n =>
      rw [take_succ_cons]
      cases ha : a.dicMap with
      | none =>
        rw [findLongestTokens_of_none ha, findLongestTokens_of_none ha, take_succ_cons, take_nil]
      | some node =>
        have htake := longestIn_take 0 (w :: ws) node (n + 1)
        rw [take_succ_cons] at htake
        rw [findLongestTokens_of_some ha, findLongestTokens_of_some ha, orFirst, orFirst]
        by_cases h : (longestIn 0 (w :: ws) node).1 = []
        · rw [if_pos h, if_pos (by rw [htake, h, take_nil]), take_succ_cons, take_nil]
        · obtain ⟨k, g, hk⟩ := exists_cons_of_ne_nil h
          rw [if_neg h, if_neg (by rw [htake, hk]; exact cons_ne_nil _ _), htake]

/-- How the analyzer cuts. -/
def Analyzer.grouping (a : Analyzer) : Grouping Bytes where
  size ws := (findLongestTokens a ws).1.length
  pos w ws := length_pos_iff.mpr (findLongestTokens_ne_nil a w ws)
  size_take ws n := by rw [findLongestTokens_take, length_take, Nat.min_comm]
  le_length ws := (findLongestTokens_isPrefix a ws).length_le

theorem findLongestTokens_eq (a : Analyzer) (ws : List Bytes) :
    (findLongestTokens a ws).1 = ws.take (a.grouping.size ws) :=
  prefix_iff_eq_take.mp (findLongestTokens_isPrefix a ws)

/-- The number that a group of the line is given: 0 for a word that is not in the maps. -/
def Analyzer.idOf (a : Analyzer) (g : List Bytes) : ℕ := (a.group? g).getD 0

/-- A group of several words is one of the maps, and a group has its number. -/
theorem group?_findLongestTokens (a : Analyzer) (w : Bytes) (ws : List Bytes) :
    (2 ≤ (findLongestTokens a (w :: ws)).1.length → (a.group? (findLongestTokens a (w :: ws)).1).isSome) ∧
      (findLongestTokens a (w :: ws)).2 = a.idOf (findLongestTokens a (w :: ws)).1 := by
  rw [Analyzer.idOf, Analyzer.group?]
  cases ha : a.dicMap with
  | none =>
    rw [findLongestTokens_of_none ha]
    exact ⟨fun h => absurd h (lt_irrefl 1), rfl⟩
  | some node =>
    have hval := val?_longestIn 0 (w :: ws) node
    rw [findLongestTokens_of_some ha, orFirst, Option.bind_some]
    split_ifs with hnil
    · refine ⟨fun h => absurd h (lt_irrefl 1), ?_⟩
      -- No word at all: the first one has no node.
      cases hc : node.get? w with
      | none =>
        rw [val?_cons, hc]
        rfl
      | some c =>
        rw [longestIn, hc] at hnil
        cases hnil
    · rw [hval]
      exact ⟨fun _ => rfl, rfl⟩

/-- **A line is cut into the groups of its `cover`.** -/
theorem analyzeFrom_eq (a : Analyzer) (i last : ℕ) (ws : List Bytes) :
    analyzeFrom a i last ws = (cover a.grouping i last ws).map fun x => ⟨x.2, a.idOf x.2, x.1 % 2 ^ 16⟩ := by
  induction ws generalizing i last with
  | nil => rfl
  | cons w ws ih =>
    have htokens := findLongestTokens_eq a (w :: ws)
    have hid := (group?_findLongestTokens a w ws).2
    rw [cover]
    change (if i + a.grouping.size (w :: ws) ≤ last then _ else _) = _
    split_ifs with h
    · exact ih _ _
    · rw [map_cons, ← htokens, ← hid, ← ih]
      rfl

/-- The groups of a line, with their positions. -/
def Analyzer.groups (a : Analyzer) (log : Log) : List (ℕ × List Bytes) := cover a.grouping 0 0 log.words

theorem analyze_eq (a : Analyzer) (log : Log) :
    analyze a log = (a.groups log).map fun x => ⟨x.2, a.idOf x.2, x.1 % 2 ^ 16⟩ := analyzeFrom_eq a 0 0 log.words

theorem isWord_of_mem_groups (h : (j, g) ∈ a.groups log) : ∀ w ∈ g, IsWord w :=
  fun w hw => log.isWord w (mem_of_mem_drop ((prefix_drop_of_mem h).subset hw))

theorem group?_of_mem_groups (h : (j, g) ∈ a.groups log) (hg : 2 ≤ g.length) : a.group? g = some (a.idOf g) := by
  obtain ⟨hj, rfl, -⟩ := mem_cover_zero.mp h
  have hcons := drop_eq_getElem_cons hj
  have hgroup : a.grouping.group log.words j = (findLongestTokens a (log.words.drop j)).1 :=
    (findLongestTokens_eq a _).symm
  rw [hgroup, hcons] at hg ⊢
  obtain ⟨n, hn⟩ := Option.isSome_iff_exists.mp ((group?_findLongestTokens a _ _).1 hg)
  rw [Analyzer.idOf, hn]
  rfl

end GeminiTS.Text
