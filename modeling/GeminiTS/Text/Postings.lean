import GeminiTS.Text.Dictionary

/-!
# Postings — the trie a batch of lines is recorded in

`TokenIndex.Analyse` of the text index (`engine/index/clv/index.go`): every group of a line is a node of a trie, with a
posting of the line; every proper end of the group is a node too, with the number of the group and the offset in it.
-/

namespace GeminiTS.Text

open Lib List Forest

/-! ### Postings and numbers -/

/-- A posting: the time of the row and the position of the group in it. -/
structure InvertState where
  rowId : Int64
  position : ℕ
  deriving DecidableEq

/-- The postings by series, and the numbers of the longer groups: a map and a set of Go. -/
structure InvertIndex where
  invertStates : List (UInt64 × List InvertState)
  ids : List ℕ
  states_nodup : (invertStates.map Prod.fst).Nodup
  ids_nodup : ids.Nodup

def NewInvertIndex : InvertIndex := ⟨[], [], nodup_nil, nodup_nil⟩

/-- The postings of a series. -/
def InvertIndex.states (ii : InvertIndex) (sid : UInt64) : List InvertState := (ii.invertStates.lookup sid).getD []

/-- Append postings to those of a series, which is created if it is not there. -/
def appendStates (sid : UInt64) (iss : List InvertState) :
    List (UInt64 × List InvertState) → List (UInt64 × List InvertState)
  | [] => [(sid, iss)]
  | x :: xs => if x.1 = sid then (x.1, x.2 ++ iss) :: xs else x :: appendStates sid iss xs

theorem map_fst_appendStates (sid : UInt64) (iss : List InvertState) (l : List (UInt64 × List InvertState)) :
    (appendStates sid iss l).map Prod.fst =
      if sid ∈ l.map Prod.fst then l.map Prod.fst else l.map Prod.fst ++ [sid] := by
  induction l with
  | nil => rfl
  | cons x xs ih =>
    rw [appendStates]
    by_cases hx : x.1 = sid
    · subst hx
      have hmem : x.1 ∈ (x :: xs).map Prod.fst := mem_cons_self
      rw [if_pos rfl, if_pos hmem]
      rfl
    · have hmem : sid ∈ (x :: xs).map Prod.fst ↔ sid ∈ xs.map Prod.fst := mem_cons.trans (or_iff_right (Ne.symm hx))
      rw [if_neg hx, map_cons, ih]
      by_cases h : sid ∈ xs.map Prod.fst
      · rw [if_pos h, if_pos (hmem.mpr h)]
        rfl
      · rw [if_neg h, if_neg (mt hmem.mp h)]
        rfl

theorem nodup_appendStates (sid : UInt64) (iss : List InvertState) {l : List (UInt64 × List InvertState)}
    (h : (l.map Prod.fst).Nodup) : ((appendStates sid iss l).map Prod.fst).Nodup := by
  rw [map_fst_appendStates]
  split_ifs with hmem
  · exact h
  · exact nodup_append.mpr ⟨h, nodup_singleton _, fun x hx y hy hxy => hmem (by
      rw [mem_singleton] at hy
      rwa [← hy, ← hxy])⟩

def InvertIndex.Append (ii : InvertIndex) (sid : UInt64) (iss : List InvertState) : InvertIndex := { ii with
    invertStates := appendStates sid iss ii.invertStates
    states_nodup := nodup_appendStates sid iss ii.states_nodup }

def InvertIndex.AddInvertState (ii : InvertIndex) (sid : UInt64) (is : InvertState) : InvertIndex := ii.Append sid [is]

def InvertIndex.AddId (ii : InvertIndex) (id : ℕ) : InvertIndex :=
  if h : id ∈ ii.ids then ii
  else
    { ii with
      ids := ii.ids ++ [id]
      ids_nodup := nodup_append.mpr ⟨ii.ids_nodup, nodup_singleton _, fun x hx y hy hxy => h (by
        rw [mem_singleton] at hy
        rwa [← hy, ← hxy])⟩ }

@[simp] theorem states_new (sid : UInt64) : NewInvertIndex.states sid = [] := rfl

theorem lookup_appendStates (sid sid' : UInt64) (iss : List InvertState) (l : List (UInt64 × List InvertState)) :
    ((appendStates sid iss l).lookup sid').getD [] = (l.lookup sid').getD [] ++ if sid' = sid then iss else [] := by
  induction l with
  | nil =>
    rw [appendStates, lookup_cons]
    by_cases h : sid' = sid
    · rw [beq_iff_eq.mpr h, if_pos h]
      rfl
    · rw [beq_false_of_ne h, if_neg h]
      rfl
  | cons x xs ih =>
    rw [appendStates]
    split_ifs with hx h h
    · subst hx h
      rw [lookup_cons, lookup_cons, beq_self_eq_true]
      rfl
    · rw [lookup_cons, lookup_cons, beq_false_of_ne (fun h' => h (h'.trans hx)), append_nil]
    · rw [lookup_cons, lookup_cons, beq_false_of_ne (fun h' => hx (h'.symm.trans h))]
      rwa [if_pos h] at ih
    · rw [lookup_cons, lookup_cons]
      rw [if_neg h] at ih
      cases sid' == x.1 with
      | true => exact (append_nil _).symm
      | false => exact ih

variable {rowId : Int64} {id position n : ℕ} (ii : InvertIndex)

@[simp] theorem states_Append (sid sid' : UInt64) (iss : List InvertState) :
    (ii.Append sid iss).states sid' = ii.states sid' ++ if sid' = sid then iss else [] :=
  lookup_appendStates sid sid' iss ii.invertStates

@[simp] theorem ids_Append (sid : UInt64) (iss : List InvertState) : (ii.Append sid iss).ids = ii.ids := rfl

@[simp] theorem states_AddId (id : ℕ) (sid : UInt64) : (ii.AddId id).states sid = ii.states sid := by
  rw [InvertIndex.AddId]
  split_ifs <;> rfl

@[simp] theorem mem_ids_AddId {ii : InvertIndex} : n ∈ (ii.AddId id).ids ↔ n ∈ ii.ids ∨ n = id := by
  rw [InvertIndex.AddId]
  split_ifs with h
  · exact ⟨.inl, fun h' => h'.elim (fun h' => h') fun h' => h' ▸ h⟩
  · change n ∈ ii.ids ++ [id] ↔ _
    rw [mem_append, mem_singleton]

/-! ### The trie -/

/-- A line with its series and the time of its row (`Logs`). -/
structure Doc where
  log : Log
  sid : UInt64
  rowId : Int64

/-- A node of the trie: its postings and numbers, and its children. -/
abbrev TrieNode := InvertIndex × Forest Bytes InvertIndex

def NewTrieNode : TrieNode := (NewInvertIndex, .nil)

/-- Go down to a node, creating it if it is not there, and change its postings and numbers. -/
def TrieNode.change (f : InvertIndex → InvertIndex) (vtoken : List Bytes) (node : TrieNode) : TrieNode :=
  Forest.descend NewInvertIndex (fun rest ii => if rest = [] then f ii else ii) vtoken node

def insertTrieNode (vtoken : List Bytes) (sid : UInt64) (rowId : Int64) (position : ℕ) : TrieNode → TrieNode :=
  TrieNode.change (fun ii => ii.AddInvertState sid ⟨rowId, position⟩) vtoken

def insertSuffixToTrie (vtoken : List Bytes) (id : ℕ) : TrieNode → TrieNode :=
  TrieNode.change (fun ii => ii.AddId id) vtoken

/-- `assembleId`: a 32-bit number with the offset in the low 6 bits. -/
def assembleId (id offset : ℕ) : ℕ := (id * 2 ^ 6 % 2 ^ 32 + offset) % 2 ^ 32

def disassembleId (assyId : ℕ) : ℕ × ℕ := (assyId / 2 ^ 6, assyId % 2 ^ 6)

theorem disassembleId_assembleId {offset : ℕ} (hid : id < 2 ^ 26) (hoff : offset < 2 ^ 6) :
    disassembleId (assembleId id offset) = (id, offset) := by
  have h : assembleId id offset = id * 2 ^ 6 + offset := by
    unfold assembleId
    omega
  rw [disassembleId, Prod.mk.injEq]
  omega

/-- What `Analyse` does with one group of a line: the group itself, and its proper ends. -/
def insertGroup (doc : Doc) (node : TrieNode) (v : VToken) : TrieNode := (List.range' 1 (v.tokens.length - 1)).foldl
    (fun node i => insertSuffixToTrie (v.tokens.drop i) (assembleId v.id i) node)
    (insertTrieNode v.tokens doc.sid doc.rowId v.pos node)

/-- `Analyse`: the trie of a batch. -/
def analyse (a : Analyzer) (docs : List Doc) : TrieNode :=
  docs.foldl (fun node doc => (analyze a doc.log).foldl (insertGroup doc) node) NewTrieNode

/-! ### What is at a path -/

/-- A posting at a path. -/
def HasPosting (node : TrieNode) (p : List Bytes) (sid : UInt64) (is : InvertState) : Prop :=
  ∃ ii, Forest.val? p node = some ii ∧ is ∈ ii.states sid

/-- A number at a path. -/
def HasId (node : TrieNode) (p : List Bytes) (n : ℕ) : Prop := ∃ ii, Forest.val? p node = some ii ∧ n ∈ ii.ids

variable {node : TrieNode} {p q : List Bytes}

/-- What a change at one path means for a property of the others. -/
theorem val?_change (f : InvertIndex → InvertIndex) (hp : p ≠ []) : val? p (node.change f q) =
      if p = q then some (f ((val? p node).getD NewInvertIndex))
      else if p <+: q then some ((val? p node).getD NewInvertIndex) else val? p node := by
  rw [TrieNode.change, val?_descend _ _ _ _ _ hp]
  by_cases hpq : p <+: q
  · have hdrop : q.drop p.length = [] ↔ p = q := by
      obtain ⟨t, rfl⟩ := hpq
      rw [drop_left]
      exact ⟨fun h => by rw [h, append_nil], fun h => append_cancel_left (by rw [← h, append_nil])⟩
    rw [if_pos hpq, if_pos hpq]
    by_cases heq : p = q
    · rw [if_pos heq, if_pos (hdrop.mpr heq)]
    · rw [if_neg heq, if_neg (mt hdrop.mp heq)]
  · rw [if_neg hpq, if_neg hpq, if_neg]
    rintro rfl
    exact hpq (prefix_refl _)

/-- A change that adds to a property of the values, which new values do not have. -/
theorem exists_val?_change (node : TrieNode) (q : List Bytes) {P : InvertIndex → Prop} {f : InvertIndex → InvertIndex}
    {A : Prop} (hnew : ¬ P NewInvertIndex) (hf : ∀ ii, P (f ii) ↔ P ii ∨ A) (hp : p ≠ []) :
    (∃ ii, val? p (node.change f q) = some ii ∧ P ii) ↔ (∃ ii, val? p node = some ii ∧ P ii) ∨ p = q ∧ A := by
  have hget : P ((val? p node).getD NewInvertIndex) ↔ ∃ ii, val? p node = some ii ∧ P ii := by
    cases val? p node with
    | none => simp [hnew]
    | some ii => simp
  rw [val?_change f hp]
  split_ifs with heq hpq
  · rw [← hget]
    constructor
    · rintro ⟨ii, hii, h⟩
      cases hii
      exact ((hf _).mp h).imp_right fun hA => ⟨heq, hA⟩
    · intro h
      exact ⟨_, rfl, (hf _).mpr (h.imp_right And.right)⟩
  · rw [← hget]
    constructor
    · rintro ⟨_, h, hP⟩
      cases h
      exact .inl hP
    · intro h
      exact ⟨_, rfl, h.resolve_right fun h => heq h.1⟩
  · exact ⟨.inl, fun h => h.resolve_right fun h => heq h.1⟩

variable {sid : UInt64} {is : InvertState}

theorem hasPosting_insertTrieNode {sid' : UInt64} (hp : p ≠ []) :
    HasPosting (insertTrieNode q sid rowId position node) p sid' is ↔
      HasPosting node p sid' is ∨ p = q ∧ sid' = sid ∧ is = ⟨rowId, position⟩ := by
  refine exists_val?_change node q not_mem_nil (fun ii => ?_) hp
  rw [InvertIndex.AddInvertState, states_Append, mem_append]
  split_ifs with h
  · rw [mem_singleton, and_iff_right h]
  · exact ⟨fun h' => .inl (h'.resolve_right not_mem_nil), fun h' => .inl (h'.resolve_right fun h' => h h'.1)⟩

theorem hasPosting_insertSuffixToTrie (hp : p ≠ []) :
    HasPosting (insertSuffixToTrie q id node) p sid is ↔ HasPosting node p sid is := by
  have h := exists_val?_change node q (P := fun ii => is ∈ ii.states sid) (f := fun ii => ii.AddId id)
    not_mem_nil (fun ii => by rw [states_AddId, or_false]) hp
  rwa [and_false, or_false] at h

theorem hasId_insertTrieNode (hp : p ≠ []) : HasId (insertTrieNode q sid rowId position node) p n ↔ HasId node p n := by
  have h := exists_val?_change node q (P := fun ii => n ∈ ii.ids)
    (f := fun ii => ii.AddInvertState sid ⟨rowId, position⟩)
    not_mem_nil
    (fun ii => by rw [InvertIndex.AddInvertState, ids_Append, or_false]) hp
  rwa [and_false, or_false] at h

theorem hasId_insertSuffixToTrie (hp : p ≠ []) :
    HasId (insertSuffixToTrie q id node) p n ↔ HasId node p n ∨ p = q ∧ n = id :=
  exists_val?_change node q not_mem_nil (fun _ => mem_ids_AddId) hp

theorem foldl_iff_exists {σ ι : Type*} {step : σ → ι → σ} {P : σ → Prop} {A : ι → Prop}
    (hstep : ∀ s i, P (step s i) ↔ P s ∨ A i) (l : List ι) (s : σ) :
    P (l.foldl step s) ↔ P s ∨ ∃ i ∈ l, A i := by
  induction l generalizing s with
  | nil => simp
  | cons i l ih => rw [foldl_cons, ih, hstep, exists_mem_cons_iff, or_assoc]

theorem analyse_iff {P : TrieNode → Prop} {A : Doc → VToken → Prop} (hnew : ¬ P NewTrieNode)
    (hgroup : ∀ doc node v, P (insertGroup doc node v) ↔ P node ∨ A doc v) (a : Analyzer) (docs : List Doc) :
    P (analyse a docs) ↔ ∃ doc ∈ docs, ∃ j g, (j, g) ∈ a.groups doc.log ∧ A doc ⟨g, a.idOf g, j % 2 ^ 16⟩ := by
  have hdoc (node : TrieNode) (doc : Doc) := foldl_iff_exists (hgroup doc) (analyze a doc.log) node
  rw [analyse, foldl_iff_exists hdoc, or_iff_right hnew]
  refine exists_congr fun doc => and_congr_right fun _ => ?_
  rw [analyze_eq]
  constructor
  · rintro ⟨v, hv, h⟩
    obtain ⟨⟨j, g⟩, hg, rfl⟩ := mem_map.mp hv
    exact ⟨j, g, hg, h⟩
  · rintro ⟨j, g, hg, h⟩
    exact ⟨_, mem_map_of_mem hg, h⟩

section

variable (hp : p ≠ [])

include hp

theorem val?_new : val? p NewTrieNode = none := by
  obtain ⟨k, p, rfl⟩ := exists_cons_of_ne_nil hp
  rfl

variable {doc : Doc} {a : Analyzer} {v : VToken} {docs : List Doc}

theorem hasPosting_insertGroup : HasPosting (insertGroup doc node v) p sid is ↔
      HasPosting node p sid is ∨ p = v.tokens ∧ sid = doc.sid ∧ is = ⟨doc.rowId, v.pos⟩ := by
  rw [insertGroup, foldl_iff_exists (P := fun node => HasPosting node p sid is)
    fun node i => (hasPosting_insertSuffixToTrie hp).trans (or_false _).symm.to_iff, hasPosting_insertTrieNode hp]
  simp

theorem hasId_insertGroup {n : ℕ} : HasId (insertGroup doc node v) p n ↔ HasId node p n ∨
      ∃ i, 1 ≤ i ∧ i < v.tokens.length ∧ p = v.tokens.drop i ∧ n = assembleId v.id i := by
  rw [insertGroup, foldl_iff_exists (P := fun node => HasId node p n)
    (A := fun i => p = v.tokens.drop i ∧ n = assembleId v.id i) fun node i => hasId_insertSuffixToTrie hp,
    hasId_insertTrieNode hp]
  refine or_congr_right (exists_congr fun i => ?_)
  rw [mem_range'_1, and_assoc]
  refine and_congr_right fun hi => and_congr_left fun _ => ?_
  omega

/-- **The postings at a path** are those of the lines that have the path as a group. -/
theorem hasPosting_analyse : HasPosting (analyse a docs) p sid is ↔
      ∃ doc ∈ docs, sid = doc.sid ∧ ∃ j, (j, p) ∈ a.groups doc.log ∧ is = ⟨doc.rowId, j % 2 ^ 16⟩ := by
  have hnew : ¬ HasPosting NewTrieNode p sid is := fun ⟨_, h, _⟩ => absurd (h.symm.trans (val?_new hp)) (by simp)
  rw [analyse_iff (P := fun node => HasPosting node p sid is) hnew fun doc node v => hasPosting_insertGroup hp]
  refine exists_congr fun doc => and_congr_right fun _ => ⟨?_, ?_⟩
  · rintro ⟨j, g, hg, rfl, hsid, his⟩
    exact ⟨hsid, j, hg, his⟩
  · rintro ⟨hsid, j, hg, his⟩
    exact ⟨j, p, hg, rfl, hsid, his⟩

/-- **The numbers at a path** are those of the groups of the lines that end in it, with its offset in them. -/
theorem hasId_analyse {n : ℕ} : HasId (analyse a docs) p n ↔ ∃ doc ∈ docs, ∃ j g, (j, g) ∈ a.groups doc.log ∧
      ∃ i, 1 ≤ i ∧ i < g.length ∧ p = g.drop i ∧ n = assembleId (a.idOf g) i := by
  have hnew : ¬ HasId NewTrieNode p n := fun ⟨_, h, _⟩ => absurd (h.symm.trans (val?_new hp)) (by simp)
  exact analyse_iff (P := fun node => HasId node p n) hnew (fun doc node v => hasId_insertGroup hp) a docs

theorem isSome_val?_change {f : InvertIndex → InvertIndex} :
    (val? p (node.change f q)).isSome ↔ (val? p node).isSome ∨ p <+: q := by
  rw [val?_change f hp]
  split_ifs with heq hpq
  · exact iff_of_true rfl (.inr (heq ▸ prefix_refl _))
  · exact iff_of_true rfl (.inr hpq)
  · exact (or_iff_left hpq).symm

theorem exists_group_of_val? (h : (val? p (analyse a docs)).isSome) :
    ∃ doc ∈ docs, ∃ j g, (j, g) ∈ a.groups doc.log ∧ ∃ i, p <+: g.drop i := by
  have hsuffix (v : VToken) (node : TrieNode) (i : ℕ) :
      (val? p (insertSuffixToTrie (v.tokens.drop i) (assembleId v.id i) node)).isSome = true ↔
        (val? p node).isSome = true ∨ p <+: v.tokens.drop i := isSome_val?_change hp
  have hgroup (doc : Doc) (node : TrieNode) (v : VToken) : (val? p (insertGroup doc node v)).isSome = true ↔
      (val? p node).isSome = true ∨ (p <+: v.tokens ∨ ∃ i ∈ range' 1 (v.tokens.length - 1), p <+: v.tokens.drop i) := by
    rw [insertGroup, foldl_iff_exists (P := fun node => (val? p node).isSome = true) (hsuffix v), insertTrieNode,
      isSome_val?_change hp, or_assoc]
  rw [analyse_iff (P := fun node => (val? p node).isSome = true) (by simp [val?_new hp]) hgroup] at h
  obtain ⟨doc, hmem, j, g, hg, h⟩ := h
  refine ⟨doc, hmem, j, g, hg, ?_⟩
  rcases h with h | ⟨i, -, h⟩
  · exact ⟨0, h⟩
  · exact ⟨i, h⟩

end

theorem distinct_analyse (a : Analyzer) (docs : List Doc) : (analyse a docs).2.Distinct := by
  have hgroup (doc : Doc) (node : TrieNode) (hnode : node.2.Distinct) (v : VToken) :
      (insertGroup doc node v).2.Distinct := by
    refine foldlRecOn _ _ (motive := fun node : TrieNode => node.2.Distinct) ?_ fun node hnode i _ => ?_
    · exact Forest.Distinct.descend _ _ hnode _
    · exact Forest.Distinct.descend _ _ hnode _
  refine foldlRecOn docs _ (motive := fun node : TrieNode => node.2.Distinct) trivial fun node hnode doc _ => ?_
  exact foldlRecOn _ _ (motive := fun node : TrieNode => node.2.Distinct) hnode fun node hnode v _ =>
    hgroup doc node hnode v

end GeminiTS.Text
