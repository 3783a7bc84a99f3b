import GeminiTS.Lib.SplitBytes
import GeminiTS.Text.PhraseFound

/-!
# Collector — learning a dictionary from log lines

The collector counts how often up to `Qmax` words follow each other (`engine/index/clv/collector.go`), drops what is
too rare, and saves the longest groups that are left; `loadAnalyzer` (`analyzer_cache.go`) reads them back in the order
of their bytes.

* `Learning.finds_iff` — no row is missed exactly if the dictionary is closed under dropping the first word of a group.
* `not_finds_escape` — a dictionary that is not, learned from a line with an escape character.
* `not_matchesReal_suffix` — a reported row that does not hold the phrase.
-/

namespace GeminiTS.Text

open Lib List Forest

/-! ### The code -/

namespace Collector

/-- A `collectNode`: its frequency, and its children by their words. -/
abbrev Node := ℕ × Forest Bytes ℕ

def Qmax : ℕ := 7

def newCollectNode : Node := (0, .nil)

def insertNode (tokens : List Bytes) (root : Node) : Node :=
  Forest.descend 0 (fun _ frequency => frequency + 1) tokens root

/-- `insert`: the words from each start on, at most `Qmax` of them. -/
def insert : List Bytes → Node → Node
  | [], root => root
  | token :: tokens, root => insert tokens (insertNode ((token :: tokens).take Qmax) root)

def pruneNode (th : ℤ) : Forest Bytes ℕ → Forest Bytes ℕ
  | .nil => .nil
  | .cons token frequency child next =>
    if (frequency : ℤ) < th then pruneNode th next
    else .cons token frequency (pruneNode th child) (pruneNode th next)

/-- A node without children is saved if it has more than one word. -/
def leafItem (tokensCount : ℕ) (vtoken : Bytes) : List Bytes := if tokensCount ≤ 1 then [] else [vtoken]

/-- The loop over the children in `genItemsFromCollectTree`. -/
def genItems (tokensCount : ℕ) (vtoken : Bytes) : Forest Bytes ℕ → List Bytes
  | .nil => []
  | .cons token _ child next =>
    (if child.keys.isEmpty then leafItem (tokensCount + 1) (vtoken ++ token ++ [0x20])
      else genItems (tokensCount + 1) (vtoken ++ token ++ [0x20]) child) ++ genItems tokensCount vtoken next

def genItemsFromCollectTree (node : Node) (tokensCount : ℕ) (vtoken : Bytes) : List Bytes :=
  if node.2.keys.isEmpty then leafItem tokensCount vtoken else genItems tokensCount vtoken node.2

/-- The tree after `Collect` of each line. -/
def collected (lines : List Log) : Node := lines.foldl (fun root line => insert line.words root) newCollectNode

/-- `saveDictionary`: the items without the version in front, which is the same for all. -/
def saveDictionary (lines : List Log) (th : ℤ) : List Bytes :=
  genItemsFromCollectTree (0, pruneNode th (collected lines).2) 0 []

end Collector

/-- The loop of `loadAnalyzer`: the table gives the items in the order of their bytes. -/
def loadDictionary (items : List Bytes) : DicNodes :=
  (stableSort id items).foldl (fun dictionary item => insertToDic (splitAll 0x20 item) dictionary) .nil

/-! ### The size of groups -/

theorem length_splitAll (sep : UInt8) (s : Bytes) : (splitAll sep s).length = s.count sep + 1 := by
  induction s with
  | nil => rfl
  | cons b s ih =>
    rw [splitAll, count_cons]
    by_cases hb : b = sep
    · rw [if_pos hb, if_pos (beq_iff_eq.mpr hb), length_cons, ih]
    · rw [if_neg hb, if_neg (by simpa using hb), ← ih]
      cases hs : splitAll sep s with
      | nil => exact absurd hs (splitAll_ne_nil sep s)
      | cons part parts => rfl

theorem IsWord.count_blank {w : Bytes} (h : IsWord w) : w.count 0x20 ≤ 3 := by
  rcases h with ⟨-, hall⟩ | ⟨c, cs, rfl, h80, -, hlen⟩
  · rw [count_eq_zero.mpr]
    · exact Nat.zero_le _
    · intro hmem
      exact absurd (hall _ hmem) (by decide)
  · have hc : (c == 0x20) = false := by
      refine beq_false_of_ne ?_
      rintro rfl
      exact h80 (by decide)
    have hcs : cs.length ≤ 3 := by
      rw [length_cons, charBytes] at hlen
      split_ifs at hlen <;> omega
    rw [count_cons, hc]
    exact count_le_length.trans hcs

theorem count_vtoken {ws : List Bytes} (h : ∀ w ∈ ws, IsWord w) : (vtoken ws).count 0x20 ≤ 4 * ws.length := by
  induction ws with
  | nil => exact Nat.zero_le _
  | cons w ws ih =>
    have hw := (h w mem_cons_self).count_blank
    have hws := ih fun w hw => h w (mem_cons_of_mem _ hw)
    rw [vtoken_cons, count_append, count_cons_self, length_cons]
    omega

/-! ### The depth of the dictionary -/

variable {m : ℕ} {g : List Bytes} (token : Bytes) (id : ℕ) (child t : DicNodes)

theorem depth_modifyChild {f : DicNodes → DicNodes} (hf : ∀ t, (f t).depth ≤ max m t.depth) (n : ℕ) (t : DicNodes) :
    (modifyChild f n t).depth ≤ max (m + 1) t.depth := by
  induction t generalizing n with
  | nil =>
    rw [modifyChild]
    exact Nat.zero_le _
  | cons token id child next _ ih =>
    cases n with
    | zero =>
      have := hf child
      rw [modifyChild, depth, depth]
      omega
    | succ n =>
      have := ih n
      rw [modifyChild, depth, depth]
      omega

theorem depth_appendChild : (appendChild token child t).depth = max (child.depth + 1) t.depth := by
  induction t with
  | nil => rfl
  | cons token' id' child' next _ ih =>
    rw [appendChild, depth, depth, ih, Nat.max_left_comm]

theorem depth_insertToDic (tokens : List Bytes) (t : DicNodes) :
    (insertToDic tokens t).depth ≤ max tokens.length t.depth := by
  induction tokens generalizing t with
  | nil => exact Nat.le_max_right _ _
  | cons token tokens ih =>
    rw [insertToDic]
    cases findNodeByToken t token with
    | some n => exact depth_modifyChild ih n t
    | none =>
      have := ih .nil
      rw [depth] at this
      rw [depth_appendChild, length_cons]
      omega

theorem depth_insertSorted : (insertSorted token id child t).depth = max (child.depth + 1) t.depth := by
  induction t with
  | nil => rfl
  | cons token' id' child' next _ ih =>
    rw [insertSorted]
    split_ifs
    · rw [depth, depth, ih, Nat.max_left_comm]
    · rfl

theorem depth_sortDic : (sortDic t).depth = t.depth := by
  induction t with
  | nil => rfl
  | cons token id child next ihc ihn => rw [sortDic, depth_insertSorted, ihc, ihn, depth]

theorem depth_assignId (dicMap : DicNodes) : (assignId id t dicMap).2.1.depth = t.depth := by
  induction t generalizing id dicMap with
  | nil => rfl
  | cons token v child next ihc ihn =>
    change max ((assignId id child .nil).2.1.depth + 1) (assignId _ next _).2.1.depth = _
    rw [ihc, ihn, depth]

theorem mem_items_of_group? {tree : DicNodes} (hg : g ≠ []) {n : ℕ} (h : (Analyzer.ofDic tree).group? g = some n) :
    (g, n) ∈ (Analyzer.ofDic tree).dictionary.items := by
  refine (mem_items_of_dicMap 1 (sortDic tree) .nil hg h).resolve_right ?_
  obtain ⟨k, g, rfl⟩ := exists_cons_of_ne_nil hg
  intro h
  cases h

theorem length_le_of_group? {tree : DicNodes} {n : ℕ} (h : (Analyzer.ofDic tree).group? g = some n) :
    g.length ≤ tree.depth := by
  by_cases hg : g = []
  · rw [hg]
    exact Nat.zero_le _
  · have := length_le_depth (mem_items_of_group? hg h)
    rwa [show (Analyzer.ofDic tree).dictionary.depth = tree.depth from
      (depth_assignId 1 _ _).trans (depth_sortDic tree)] at this

theorem depth_loadDictionary {items : List Bytes} (h : ∀ item ∈ items, item.count 0x20 < m) :
    (loadDictionary items).depth ≤ m := by
  have hfold : ∀ (l : List Bytes) t, (∀ item ∈ l, item.count 0x20 < m) → t.depth ≤ m →
      (l.foldl (fun dictionary item => insertToDic (splitAll 0x20 item) dictionary) t).depth ≤ m := by
    intro l
    induction l with
    | nil => exact fun t _ ht => ht
    | cons item l ih =>
      intro t hl ht
      refine ih _ (forall_mem_cons.mp hl).2 ?_
      refine (depth_insertToDic _ _).trans (Nat.max_le.mpr ⟨?_, ht⟩)
      rw [length_splitAll]
      exact hl item mem_cons_self
  exact hfold _ _ (fun item hitem => h item ((stableSort_perm id items).mem_iff.mp hitem)) (Nat.zero_le _)

/-! ### Frequencies -/

namespace Collector

/-- The windows of a line: at each start the words from there, at most `Qmax`. -/
def windows : List Bytes → List (List Bytes)
  | [] => []
  | token :: tokens => (token :: tokens).take Qmax :: windows tokens

theorem insert_eq (tokens : List Bytes) (root : Node) :
    insert tokens root = (windows tokens).foldl (fun root window => insertNode window root) root := by
  induction tokens generalizing root with
  | nil => rfl
  | cons token tokens ih =>
    rw [insert, ih]
    rfl

theorem collected_eq (lines : List Log) : collected lines =
    (lines.flatMap fun line => windows line.words).foldl
      (fun root window => insertNode window root) newCollectNode := by
  rw [foldl_flatMap]
  unfold collected
  simp only [insert_eq]

/-- How many windows a path begins. -/
def frequency (p : List Bytes) (ws : List (List Bytes)) : ℕ := ws.countP fun w => p <+: w

variable {p q : List Bytes} {ws : List (List Bytes)}

theorem frequency_cons (w : List Bytes) : frequency p (w :: ws) = frequency p ws + if p <+: w then 1 else 0 := by
  rw [frequency, countP_cons, frequency]
  simp only [decide_eq_true_eq]

theorem val?_insertNodes (hp : p ≠ []) (root : Node) :
    val? p (ws.foldl (fun root window => insertNode window root) root) =
      if frequency p ws = 0 then val? p root
      else some ((val? p root).getD 0 + frequency p ws) := by
  induction ws generalizing root with
  | nil => rfl
  | cons w ws ih =>
    rw [foldl_cons, ih, insertNode, val?_descend _ _ _ _ _ hp, frequency_cons]
    by_cases hw : p <+: w
    · rw [if_pos hw, if_pos hw, if_neg (Nat.succ_ne_zero (frequency p ws)), Option.getD_some]
      split_ifs with h0
      · rw [h0]
      · congr 1
        omega
    · rw [if_neg hw, if_neg hw, Nat.add_zero]

theorem val?_collected {lines : List Log} (hp : p ≠ []) {f : ℕ} : val? p (collected lines) = some f ↔
    f = frequency p (lines.flatMap fun line => windows line.words) ∧ f ≠ 0 := by
  have hnone : val? p newCollectNode = none := by
    obtain ⟨k, p, rfl⟩ := exists_cons_of_ne_nil hp
    rfl
  rw [collected_eq, val?_insertNodes hp, hnone]
  split_ifs with h0
  · rw [h0]
    exact ⟨fun h => (by cases h), fun h => absurd h.1 h.2⟩
  · rw [Option.getD_none, Nat.zero_add, Option.some_inj]
    exact ⟨fun h => ⟨h.symm, fun hf => h0 (h.trans hf)⟩, fun h => h.1.symm⟩

theorem distinct_collected (lines : List Log) : (collected lines).2.Distinct := by
  rw [collected_eq]
  exact foldlRecOn _ _ (motive := fun root : Node => root.2.Distinct) trivial fun root h w _ =>
    Forest.Distinct.descend _ _ h w

/-! ### Pruning -/

variable {th : ℤ} {t : Forest Bytes ℕ}

/-- **Pruning leaves the nodes that are frequent.** -/
theorem mem_items_pruneNode {x : List Bytes × ℕ} (h : x ∈ (pruneNode th t).items) : x ∈ t.items ∧ th ≤ x.2 := by
  induction t generalizing x with
  | nil => cases h
  | cons token f child next ihc ihn =>
    rw [pruneNode] at h
    split_ifs at h with hlt
    · exact (ihn h).imp_left (mem_append_right _)
    · rw [items, cons_append, mem_cons, mem_append] at h
      rcases h with rfl | h | h
      · exact ⟨mem_cons_self, Int.not_lt.mp hlt⟩
      · obtain ⟨y, hy, rfl⟩ := mem_map.mp h
        obtain ⟨hmem, hle⟩ := ihc hy
        exact ⟨mem_append_left _ (mem_cons_of_mem _ (mem_map.mpr ⟨y, hmem, rfl⟩)), hle⟩
      · exact (ihn h).imp_left (mem_append_right _)

/-! ### What is saved -/

theorem genItems_eq (n : ℕ) (v : Bytes) (t : Forest Bytes ℕ) :
    genItems n v t = (t.leaves.filter fun p => 2 ≤ n + p.length).map fun p => v ++ vtoken p := by
  induction t generalizing n v with
  | nil => rfl
  | cons token f child next ihc ihn =>
    rw [genItems, leaves, filter_append, map_append, ← ihn]
    congr 1
    by_cases hc : child.keys.isEmpty
    · rw [if_pos hc, if_pos hc, leafItem]
      by_cases hn : n + 1 ≤ 1
      · rw [if_pos hn, filter_cons_of_neg (by rw [decide_eq_true_eq]; exact fun h => absurd hn (by
          change 2 ≤ n + 1 at h
          omega))]
        rfl
      · rw [if_neg hn, filter_cons_of_pos (by rw [decide_eq_true_eq]; change 2 ≤ n + 1; omega)]
        change [v ++ token ++ [0x20]] = [v ++ vtoken [token]]
        rw [vtoken_cons, append_assoc]
        rfl
    · rw [if_neg hc, if_neg hc, ihc, filter_map, map_map]
      have hlen : ((fun p : List Bytes => decide (2 ≤ n + p.length)) ∘ fun x => token :: x) =
          fun p => decide (2 ≤ n + 1 + p.length) := by
        funext p
        change decide (2 ≤ n + (p.length + 1)) = _
        rw [Nat.add_right_comm n 1, Nat.add_assoc n]
      rw [hlen]
      refine map_congr_left fun p _ => ?_
      change _ = v ++ vtoken (token :: p)
      rw [vtoken_cons, append_assoc, append_assoc]
      rfl

/-- The groups of the lines that are frequent enough. -/
def Frequent (lines : List Log) (th : ℤ) (p : List Bytes) : Prop :=
  frequency p (lines.flatMap fun line => windows line.words) ≠ 0 ∧
    th ≤ frequency p (lines.flatMap fun line => windows line.words)

variable {lines : List Log}

theorem frequent_of_mem_leaves (h : p ∈ (pruneNode th (collected lines).2).leaves) : Frequent lines th p := by
  obtain ⟨f, hf⟩ := mem_items_of_mem_leaves h
  obtain ⟨hmem, hth⟩ := mem_items_pruneNode hf
  obtain ⟨hne, hval⟩ := (Forest.mem_items (distinct_collected lines)).mp hmem
  obtain ⟨rfl, h0⟩ := (val?_collected hne).mp hval
  exact ⟨h0, hth⟩

theorem exists_of_mem_saveDictionary {item : Bytes} (h : item ∈ saveDictionary lines th) :
    ∃ p, 2 ≤ p.length ∧ Frequent lines th p ∧ item = vtoken p := by
  rw [saveDictionary, genItemsFromCollectTree] at h
  split_ifs at h
  · cases h
  · rw [genItems_eq] at h
    obtain ⟨p, hp, rfl⟩ := mem_map.mp h
    obtain ⟨hleaf, hlen⟩ := mem_filter.mp hp
    rw [decide_eq_true_eq, Nat.zero_add] at hlen
    exact ⟨p, hlen, frequent_of_mem_leaves hleaf, rfl⟩

/-- A frequent group stands in a line, and has at most `Qmax` words. -/
theorem Frequent.exists_line (h : Frequent lines th p) : p.length ≤ Qmax ∧ ∃ line ∈ lines, ∀ w ∈ p, w ∈ line.words := by
  obtain ⟨w, hw, hpw⟩ := countP_pos_iff.mp (Nat.pos_of_ne_zero h.1)
  obtain ⟨line, hline, hwin⟩ := mem_flatMap.mp hw
  have hwindow : ∀ tokens : List Bytes, w ∈ windows tokens → w.length ≤ Qmax ∧ ∀ u ∈ w, u ∈ tokens := by
    intro tokens
    induction tokens with
    | nil => exact fun hmem => absurd hmem not_mem_nil
    | cons token tokens ih =>
      intro hmem
      rcases mem_cons.mp hmem with rfl | hmem
      · exact ⟨length_take_le _ _, fun u hu => mem_of_mem_take hu⟩
      · exact ⟨(ih hmem).1, fun u hu => mem_cons_of_mem _ ((ih hmem).2 u hu)⟩
  obtain ⟨hlen, hsub⟩ := hwindow _ hwin
  rw [decide_eq_true_eq] at hpw
  exact ⟨hpw.length_le.trans hlen, line, hline, fun u hu => hsub u (hpw.subset hu)⟩

end Collector

/-! ### Learned dictionaries -/

/-- What a dictionary was learned from, if the saved groups can be loaded: `AssignId` fails on a blank dictionary. -/
structure Learning where
  lines : List Log
  threshold : ℤ
  loads : Collector.saveDictionary lines threshold ≠ []

namespace Learning

variable (L : Learning)

def items : List Bytes := Collector.saveDictionary L.lines L.threshold

def tree : DicNodes := loadDictionary L.items

theorem length_le {g : List Bytes} {n : ℕ} (h : (Analyzer.ofDic L.tree).group? g = some n) : g.length ≤ 2 ^ 6 := by
  refine (length_le_of_group? h).trans (depth_loadDictionary fun item hitem => ?_)
  obtain ⟨p, -, hp, rfl⟩ := Collector.exists_of_mem_saveDictionary hitem
  obtain ⟨hlen, line, -, hsub⟩ := hp.exists_line
  have := count_vtoken fun w hw => line.isWord w (hsub w hw)
  rw [Collector.Qmax] at hlen
  omega

/-- The numbers of the groups fit into the 26 bits they have in an item, and the groups into keys. -/
structure Small : Prop where
  fits : ∀ g n, (Analyzer.ofDic L.tree).group? g = some n → n < 2 ^ 26
  plain : (Analyzer.ofDic L.tree).Plain

variable {L}

/-- The learned dictionary. -/
def dictionary (h : L.Small) : Dictionary := ⟨L.tree, fun g n hn => ⟨h.fits g n hn, L.length_le hn⟩⟩

theorem small_of_items (h : ∀ y ∈ (Analyzer.ofDic L.tree).dictionary.items,
    y.2 < 2 ^ 26 ∧ txSuffix ∉ vtoken y.1 ∧ (vtoken y.1).length < 2 ^ 15) : L.Small := by
  have hgroup (g : List Bytes) (n : ℕ) (hn : (Analyzer.ofDic L.tree).group? g = some n) :
      n < 2 ^ 26 ∧ txSuffix ∉ vtoken g ∧ (vtoken g).length < 2 ^ 15 := by
    by_cases hg : g = []
    · subst hg
      cases hn
      exact ⟨Nat.two_pow_pos 26, not_mem_nil, Nat.two_pow_pos 15⟩
    · exact h _ (mem_items_of_group? hg hn)
  exact ⟨fun g n hn => (hgroup g n hn).1, fun g hg => (hgroup g _ (Option.some_get hg).symm).2⟩

end Learning

/-! ### A dictionary with a lost group -/

/-- The lines `q a z`, `a y` and one with an escape character, `a\x1b x`. The text of the group of the last one comes
before that of `a y`, so `a` has two nodes. -/
def escapeLearning : Learning where
  lines := [⟨[0x71, 0x20, 0x61, 0x20, 0x7a], by decide +kernel⟩, ⟨[0x61, 0x20, 0x79], by decide +kernel⟩,
    ⟨[0x61, 0x1b, 0x20, 0x78], by decide +kernel⟩]
  threshold := 1
  loads := by decide +kernel

theorem escapeLearning_small : escapeLearning.Small := Learning.small_of_items (by decide +kernel)

/-- The lines `a b c` and `c d`. -/
def suffixLearning : Learning where
  lines := [⟨[0x61, 0x20, 0x62, 0x20, 0x63], by decide +kernel⟩, ⟨[0x63, 0x20, 0x64], by decide +kernel⟩]
  threshold := 1
  loads := by decide +kernel

theorem suffixLearning_small : suffixLearning.Small := Learning.small_of_items (by decide +kernel)

/-- The lines `b c` in row 1 and `a b c d` in row 2. -/
def suffixIndex : PhraseIndex where
  dictionary := some (Learning.dictionary suffixLearning_small)
  events := [.addDocument ⟨⟨[0x62, 0x20, 0x63], by decide +kernel⟩, 0, 1⟩ inOrder,
    .addDocument ⟨⟨[0x61, 0x20, 0x62, 0x20, 0x63, 0x20, 0x64], by decide +kernel⟩, 0, 2⟩ inOrder]
  flush := inOrder
  short := by
    unfold TextIndex.Short
    decide +kernel
  storable := by
    unfold TextIndex.Storable Storable
    decide +kernel
  rows := by
    intro doc hdoc doc' hdoc' _ hrow
    obtain rfl | rfl := mem_pair.mp hdoc <;> obtain rfl | rfl := mem_pair.mp hdoc' <;>
      first | rfl | exact absurd hrow (by decide)

/-- The numbers under `c` are those of `b c` and `a b c`. The items of `b c` add the number of `a b c` once more, with
the offset of `b`. -/
def suffixResult : InvertIndex :=
  [385, 130, 129].foldl (fun ii n => visitId suffixIndex.analyzer suffixIndex.table n ii)
    (searchInvertByVtoken suffixIndex.table [[0x63]])

end GeminiTS.Text
