import GeminiTS.Text.Postings

/-!
# TokenIndex — from lines to items of the table

`AddDocument`, `processDocument`, `writeDocumentIndex` and `Flush` of the text index (`engine/index/clv/index.go`).
Lines are buffered and recorded in batches: after `maxItem` lines, whenever the ticker fires, and on `Flush`. The nodes
of the trie of a batch are written as items, parents before children; if the table does not accept an item, the rest of
the nodes below the same first word is left out.
-/

namespace GeminiTS.Text

open Lib List

/-- An item of the table: the words of its key, and its postings and numbers. -/
abbrev Item := List Bytes × InvertIndex

def InvertIndex.isEmpty (ii : InvertIndex) : Bool := ii.invertStates.isEmpty && ii.ids.isEmpty

/-! ### Writing a batch -/

section Write

variable (accepts : Item → Bool)

/-- `createDocumentIndex`: the item of a node that has one; none if the table does not accept it. -/
def createDocumentIndex (x : Item) : Option (List Item) :=
  if x.2.isEmpty then some [] else if accepts x then some [x] else none

/-- The loop of `writeDocumentIndex` over the children of a node: the items that were written, and whether it went
through. -/
def writeChildren (vtoken : List Bytes) : Forest Bytes InvertIndex → List Item × Bool
  | .nil => ([], true)
  | .cons token ii child next =>
    match createDocumentIndex accepts (vtoken ++ [token], ii) with
    | none => ([], false)
    | some items =>
      let c := writeChildren (vtoken ++ [token]) child
      let n := writeChildren vtoken next
      if c.2 then (items ++ c.1 ++ n.1, n.2) else (items ++ c.1, false)

/-- `writeDocumentIndex` on a child of the root. -/
def writeDocumentIndex (node : Bytes × InvertIndex × Forest Bytes InvertIndex) : List Item :=
  match createDocumentIndex accepts ([node.1], node.2.1) with
  | none => []
  | some items => items ++ (writeChildren accepts [node.1] node.2.2).1

/-- The loop of `processDocument`: an error ends the nodes below one first word only. -/
def writeTrie (root : Forest Bytes InvertIndex) : List Item := root.nodes.flatMap (writeDocumentIndex accepts)

/-- The order in which Go goes through the maps of children: the same nodes, arranged anew. -/
structure Walk where
  arrange : Forest Bytes InvertIndex → Forest Bytes InvertIndex
  distinct : ∀ root, root.Distinct → (arrange root).Distinct
  same : ∀ root p (r : InvertIndex), Forest.val? p (r, arrange root) = Forest.val? p (r, root)

/-- The items a batch writes. -/
def written (a : Analyzer) (batch : List Doc × Walk) : List Item :=
  writeTrie accepts (batch.2.arrange (analyse a batch.1).2)

/-! ### The index -/

def maxItem : ℕ := 2000

structure TokenIndex where
  logsBuf : List Doc
  docNum : ℕ
  table : List Item

def newTokenIndex : TokenIndex := ⟨[], 0, []⟩

/-- A call, with the order in which the maps are gone through. -/
inductive Event
  | addDocument (doc : Doc) (walk : Walk)
  | tick (walk : Walk)

variable (a : Analyzer)

def processDocument (walk : Walk) (idx : TokenIndex) : TokenIndex :=
  if idx.logsBuf = [] then idx else ⟨[], 0, idx.table ++ written accepts a (idx.logsBuf, walk)⟩

def addDocument (doc : Doc) (walk : Walk) (idx : TokenIndex) : TokenIndex :=
  let idx := { idx with logsBuf := idx.logsBuf ++ [doc], docNum := idx.docNum + 1 }
  if idx.docNum ≥ maxItem then processDocument accepts a walk idx else idx

def step (idx : TokenIndex) : Event → TokenIndex
  | .addDocument doc walk => addDocument accepts a doc walk idx
  | .tick walk => processDocument accepts a walk idx

/-- The index after a sequence of calls and a `Flush`. -/
def run (events : List Event) (flush : Walk) : TokenIndex :=
  processDocument accepts a flush (events.foldl (step accepts a) newTokenIndex)

end Write

/-- The lines of a sequence of calls. -/
def documents (events : List Event) : List Doc := events.filterMap fun
    | .addDocument doc _ => some doc
    | .tick _ => none

/-- The batches of a sequence of calls and a `Flush`, with `buf` in the buffer. -/
def batches (buf : List Doc) (flush : Walk) : List Event → List (List Doc × Walk)
  | [] => if buf = [] then [] else [(buf, flush)]
  | .addDocument doc walk :: events =>
    if buf.length + 1 ≥ maxItem then (buf ++ [doc], walk) :: batches [] flush events
    else batches (buf ++ [doc]) flush events
  | .tick walk :: events => if buf = [] then batches [] flush events else (buf, walk) :: batches [] flush events

theorem flatMap_batches (buf : List Doc) (flush : Walk) (events : List Event) :
    (batches buf flush events).flatMap Prod.fst = buf ++ documents events := by
  induction events generalizing buf with
  | nil =>
    rw [batches]
    split_ifs with h
    · subst h
      rfl
    · rfl
  | cons e events ih =>
    cases e with
    | addDocument doc walk =>
      rw [batches]
      split_ifs
      · rw [flatMap_cons, ih, append_assoc]
        rfl
      · rw [ih, append_assoc]
        rfl
    | tick walk =>
      rw [batches]
      split_ifs with h
      · subst h
        exact ih []
      · rw [flatMap_cons, ih]
        rfl

variable {idx : TokenIndex} (accepts : Item → Bool) (a : Analyzer) (walk : Walk)

theorem processDocument_of_nil (h : idx.logsBuf = []) : processDocument accepts a walk idx = idx := by
  rw [processDocument, if_pos h]

theorem processDocument_of_ne_nil (h : idx.logsBuf ≠ []) :
    processDocument accepts a walk idx = ⟨[], 0, idx.table ++ written accepts a (idx.logsBuf, walk)⟩ := by
  rw [processDocument, if_neg h]

/-- **The table holds what the batches have written.** -/
theorem table_run (events : List Event) (flush : Walk) :
    (run accepts a events flush).table = (batches [] flush events).flatMap (written accepts a) := by
  -- The buffer and its length go along with the batches.
  have hrun : ∀ (idx : TokenIndex), idx.docNum = idx.logsBuf.length →
      (processDocument accepts a flush (events.foldl (step accepts a) idx)).table =
        idx.table ++ (batches idx.logsBuf flush events).flatMap (written accepts a) := by
    induction events with
    | nil =>
      intro idx _
      rw [batches, foldl_nil, processDocument]
      split_ifs
      · exact (append_nil _).symm
      · rw [flatMap_singleton]
    | cons e events ih =>
      intro idx hnum
      rw [foldl_cons]
      cases e with
      | addDocument doc walk =>
        have hne : idx.logsBuf ++ [doc] ≠ [] := append_ne_nil_of_right_ne_nil _ (cons_ne_nil _ _)
        rw [step, addDocument, batches, ← hnum]
        by_cases hfull : idx.docNum + 1 ≥ maxItem
        · rw [if_pos hfull, if_pos hfull, processDocument_of_ne_nil accepts a walk hne, ih _ rfl, flatMap_cons,
            append_assoc]
        · rw [if_neg hfull, if_neg hfull, ih]
          rw [length_append, hnum]
          rfl
      | tick walk =>
        rw [step, batches]
        by_cases h : idx.logsBuf = []
        · rw [processDocument_of_nil accepts a walk h, ih idx hnum, if_pos h, h]
        · rw [processDocument_of_ne_nil accepts a walk h, ih _ rfl, if_neg h, flatMap_cons, append_assoc]
  exact hrun newTokenIndex rfl

/-! ### The items of a batch -/

section Items

variable {accepts : Item → Bool}

/-- A node that does not end the loop. -/
def passes (accepts : Item → Bool) (x : Item) : Bool := x.2.isEmpty || accepts x

/-- A node that has an item. -/
def hasItem (x : Item) : Bool := !x.2.isEmpty

/-- A child of the root with all nodes below it, in the order in which they are written. -/
def below (node : Bytes × InvertIndex × Forest Bytes InvertIndex) : List Item :=
  ([node.1], node.2.1) :: node.2.2.items.map fun x => (node.1 :: x.1, x.2)

theorem createDocumentIndex_eq (x : Item) :
    createDocumentIndex accepts x = if passes accepts x then some (filter hasItem [x]) else none := by
  rw [createDocumentIndex, passes, filter_singleton, hasItem]
  cases x.2.isEmpty <;> cases accepts x <;> rfl

/-- What is written below a node: the nodes up to the first one that the table does not accept. -/
theorem writeChildren_eq (vtoken : List Bytes) (root : Forest Bytes InvertIndex) : writeChildren accepts vtoken root =
      (((root.items.map fun x => (vtoken ++ x.1, x.2)).takeWhile (passes accepts)).filter hasItem,
        (root.items.map fun x => (vtoken ++ x.1, x.2)).all (passes accepts)) := by
  induction root generalizing vtoken with
  | nil => rfl
  | cons token ii child next ihc ihn =>
    have hmap : ((Forest.cons token ii child next).items.map fun x => (vtoken ++ x.1, x.2)) =
        (vtoken ++ [token], ii) :: (child.items.map fun x => (vtoken ++ [token] ++ x.1, x.2)) ++
          next.items.map fun x => (vtoken ++ x.1, x.2) := by
      rw [Forest.items, map_append, map_cons, map_map]
      congr 2
      refine map_congr_left fun x _ => ?_
      rw [Function.comp_apply, append_assoc, singleton_append]
    rw [writeChildren, createDocumentIndex_eq, hmap]
    by_cases hpass : passes accepts (vtoken ++ [token], ii) = true
    · rw [if_pos hpass]
      simp only [ihc, ihn]
      rw [cons_append, takeWhile_cons_of_pos hpass, all_cons, hpass, all_append, takeWhile_append]
      by_cases hall : (child.items.map fun x => (vtoken ++ [token] ++ x.1, x.2)).all (passes accepts) = true
      · have htake := takeWhile_eq_self_iff.mpr (all_eq_true.mp hall)
        rw [htake, if_pos rfl, hall, ← filter_append, ← filter_append]
        rfl
      · have htake : ¬ ((child.items.map fun x => (vtoken ++ [token] ++ x.1, x.2)).takeWhile (passes accepts)).length =
            (child.items.map fun x => (vtoken ++ [token] ++ x.1, x.2)).length := by
          intro hlen
          have heq := ( takeWhile_prefix (passes accepts)).eq_of_length hlen
          exact hall (all_eq_true.mpr (takeWhile_eq_self_iff.mp heq))
        rw [if_neg htake, Bool.eq_false_iff.mpr hall, ← filter_append]
        rfl
    · rw [cons_append, takeWhile_cons_of_neg hpass, all_cons, Bool.eq_false_iff.mpr hpass]
      rfl

theorem writeDocumentIndex_eq (node : Bytes × InvertIndex × Forest Bytes InvertIndex) :
    writeDocumentIndex accepts node = ((below node).takeWhile (passes accepts)).filter hasItem := by
  rw [writeDocumentIndex, createDocumentIndex_eq, below]
  by_cases hpass : passes accepts ([node.1], node.2.1) = true
  · rw [if_pos hpass, takeWhile_cons_of_pos hpass, writeChildren_eq]
    exact (filter_append [([node.1], node.2.1)] _).symm
  · rw [if_neg hpass, takeWhile_cons_of_neg hpass]
    rfl

theorem flatMap_below (root : Forest Bytes InvertIndex) : root.nodes.flatMap below = root.items := by
  induction root with
  | nil => rfl
  | cons token ii child next _ ih =>
    rw [Forest.nodes, flatMap_cons, ih]
    rfl

/-- The words of a node are written in a batch. -/
def Writes (accepts : Item → Bool) (a : Analyzer) (batch : List Doc × Walk) (p : List Bytes) : Prop :=
  p ∈ (written accepts a batch).map Prod.fst

variable {batch : List Doc × Walk} {p : List Bytes}

theorem mem_written {a : Analyzer} {ii : InvertIndex} (h : (p, ii) ∈ written accepts a batch) :
    p ≠ [] ∧ Forest.val? p (analyse a batch.1) = some ii ∧ hasItem (p, ii) = true := by
  obtain ⟨node, hnode, hmem⟩ := mem_flatMap.mp h
  rw [writeDocumentIndex_eq] at hmem
  obtain ⟨hmem, hitem⟩ := mem_filter.mp hmem
  have hitems : (p, ii) ∈ (batch.2.arrange (analyse a batch.1).2).items := by
    rw [← flatMap_below]
    exact mem_flatMap.mpr ⟨node, hnode, ( takeWhile_prefix _).subset hmem⟩
  obtain ⟨hp, hval⟩ := (Forest.mem_items (batch.2.distinct _ (distinct_analyse a batch.1)) ).mp hitems
  rw [batch.2.same] at hval
  exact ⟨hp, hval, hitem⟩

/-- With a table that accepts all items, every node with an item is written. -/
theorem writes_all {a : Analyzer} {ii : InvertIndex} (hp : p ≠ [])
    (hval : Forest.val? p (analyse a batch.1) = some ii) (hitem : hasItem (p, ii) = true) :
    Writes (fun _ => true) a batch p := by
  have hitems : (p, ii) ∈ (batch.2.arrange (analyse a batch.1).2).items := by
    refine (Forest.mem_items (batch.2.distinct _ (distinct_analyse a batch.1)) (r := (analyse a batch.1).1)).mpr
      ⟨hp, ?_⟩
    rw [batch.2.same]
    exact hval
  rw [← flatMap_below] at hitems
  obtain ⟨node, hnode, hmem⟩ := mem_flatMap.mp hitems
  refine mem_map.mpr ⟨(p, ii), mem_flatMap.mpr ⟨node, hnode, ?_⟩, rfl⟩
  have hpass : ∀ x ∈ below node, passes (fun _ => true) x = true := fun x _ => Bool.or_true _
  rw [writeDocumentIndex_eq, takeWhile_eq_self_iff.mpr hpass]
  exact mem_filter.mpr ⟨hmem, hitem⟩

/-- A posting in the items under some words. -/
def Posts (items : List Item) (p : List Bytes) (sid : UInt64) (is : InvertState) : Prop :=
  ∃ ii, (p, ii) ∈ items ∧ is ∈ ii.states sid

/-- A number in the items under some words. -/
def Ids (items : List Item) (p : List Bytes) (n : ℕ) : Prop := ∃ ii, (p, ii) ∈ items ∧ n ∈ ii.ids

theorem exists_mem_written {a : Analyzer} {P : InvertIndex → Prop} : (∃ ii, (p, ii) ∈ written accepts a batch ∧ P ii) ↔
      p ≠ [] ∧ Writes accepts a batch p ∧ ∃ ii, Forest.val? p (analyse a batch.1) = some ii ∧ P ii := by
  constructor
  · rintro ⟨ii, hmem, hP⟩
    obtain ⟨hp, hval, -⟩ := mem_written hmem
    exact ⟨hp, mem_map_of_mem hmem, ii, hval, hP⟩
  · rintro ⟨-, hw, ii, hval, hP⟩
    obtain ⟨⟨p', ii'⟩, hmem, rfl⟩ := mem_map.mp hw
    obtain ⟨-, hval', -⟩ := mem_written hmem
    obtain rfl : ii' = ii := Option.some.inj (hval'.symm.trans hval)
    exact ⟨ii', hmem, hP⟩

theorem posts_written {a : Analyzer} {sid : UInt64} {is : InvertState} :
    Posts (written accepts a batch) p sid is ↔ Writes accepts a batch p ∧ p ≠ [] ∧
      ∃ doc ∈ batch.1, sid = doc.sid ∧ ∃ j, (j, p) ∈ a.groups doc.log ∧ is = ⟨doc.rowId, j % 2 ^ 16⟩ := by
  rw [Posts, exists_mem_written, and_left_comm]
  refine and_congr_right fun _ => and_congr_right fun hp => ?_
  exact hasPosting_analyse hp

theorem ids_written {a : Analyzer} {n : ℕ} : Ids (written accepts a batch) p n ↔ Writes accepts a batch p ∧ p ≠ [] ∧
      ∃ doc ∈ batch.1, ∃ j g, (j, g) ∈ a.groups doc.log ∧
        ∃ i, 1 ≤ i ∧ i < g.length ∧ p = g.drop i ∧ n = assembleId (a.idOf g) i := by
  rw [Ids, exists_mem_written, and_left_comm]
  refine and_congr_right fun _ => and_congr_right fun hp => ?_
  exact hasId_analyse hp

end Items

end GeminiTS.Text
