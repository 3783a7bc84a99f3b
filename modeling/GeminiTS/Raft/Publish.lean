import GeminiTS.Raft.LogFile

/-!
# Publish — handing committed entries to the state machine

`serveChannels` (`lib/raftconn/node.go`) takes one `Ready` after another: it saves what came with it and
publishes those of its committed entries that `entriesToApply` leaves.

* `ReadyRun.handed_iff_noGap` — over a run the entries handed over are those above the applied index
  exactly if no batch starts after a gap; `afterSnapshot_dropped` is a run with a gap.
-/

namespace GeminiTS.Raft

open Lib List

/-- What is sent to the state machine. -/
structure Commit where
  data : List Bytes
  committedIndex : ℕ
deriving DecidableEq

/-- What a `Ready` brings: the index of a snapshot received from the leader, and committed entries. -/
structure Ready where
  snapshot : Option ℕ
  committed : List Entry

/-- The applied index, the stored snapshot, and what has been handed over so far. -/
structure RaftNode (C : Type*) where
  appliedIndex : ℕ
  snapshotIndex : ℕ
  commits : List Commit
  confChanges : List C

/-- The entries left to apply; the number to skip is an unsigned 64-bit integer. -/
def entriesToApply (appliedIndex : ℕ) (ents : List Entry) : List Entry :=
  if ents = [] then []
  else if uint64 (appliedIndex - firstOf ents + 1) < ents.length then
    ents.drop (uint64 (appliedIndex - firstOf ents + 1))
  else []

/-- The data of a normal entry; empty messages are ignored. -/
def normalData (e : Entry) : Option Bytes :=
  if e.type = entryNormal ∧ e.data ≠ [] then some e.data else none

section Node

variable {C : Type*} (unmarshal : Bytes → Option C)

/-- The configuration change of an entry; one that cannot be read is passed over. -/
def confChange (e : Entry) : Option C :=
  if e.type = entryConfChange then unmarshal e.data else none

/-- The commit a list of entries is sent as, if it has data. -/
def commitOf (ents : List Entry) : List Commit :=
  if ents.filterMap normalData = [] then [] else [⟨ents.filterMap normalData, lastOf ents⟩]

def publishEntries (n : RaftNode C) (ents : List Entry) : RaftNode C :=
  if ents = [] then n
  else
    { n with
      appliedIndex := lastOf ents
      commits := n.commits ++ commitOf ents
      confChanges := n.confChanges ++ ents.filterMap (confChange unmarshal) }

/-- A received snapshot is stored; the applied index stays. -/
def saveToStorage (n : RaftNode C) (snapshot : Option ℕ) : RaftNode C :=
  { n with snapshotIndex := snapshot.getD n.snapshotIndex }

/-- One round of `serveChannels`. -/
def RaftNode.serve (n : RaftNode C) (rd : Ready) : RaftNode C :=
  publishEntries unmarshal (saveToStorage n rd.snapshot) (entriesToApply n.appliedIndex rd.committed)

/-- `n'` is `n` after it has been handed the entries. -/
structure Handed (n n' : RaftNode C) (ents : List Entry) : Prop where
  commits : n'.commits = n.commits ++ commitOf ents
  confChanges : n'.confChanges = n.confChanges ++ ents.filterMap (confChange unmarshal)
  appliedIndex : n'.appliedIndex = if ents = [] then n.appliedIndex else lastOf ents

/-- The committed entries above an index. -/
def above (appliedIndex : ℕ) (ents : List Entry) : List Entry := ents.filter fun e => appliedIndex < e.index

/-! ### One batch -/

theorem handed_serve (n : RaftNode C) (rd : Ready) :
    Handed unmarshal n (n.serve unmarshal rd) (entriesToApply n.appliedIndex rd.committed) := by
  rw [RaftNode.serve, publishEntries]
  split_ifs with h
  · rw [h]
    exact ⟨by simp [saveToStorage, commitOf], by simp [saveToStorage], by simp [saveToStorage]⟩
  · exact ⟨rfl, rfl, by rw [if_neg h]⟩

/-- The indexes of a batch are positive 64-bit integers. -/
def InBounds (ents : List Entry) : Prop := ∀ e ∈ ents, 0 < e.index ∧ e.index < 2 ^ 64

variable {ents : List Entry} (hcons : Consecutive ents) (hb : InBounds ents) {a : ℕ} (ha : a < 2 ^ 64)

include hcons hb

theorem firstOf_add_length_le (hne : ents ≠ []) : 0 < firstOf ents ∧ firstOf ents + ents.length ≤ 2 ^ 64 := by
  have hlen := length_pos_iff.mpr hne
  have hfirst := hb _ (getElem_mem hlen)
  have hlast := hb _ (getElem_mem (n := ents.length - 1) (by omega))
  rw [hcons.index_getElem] at hfirst hlast
  omega

include ha

/-- **A batch that starts at most one above the applied index** is cut to what is above it. -/
theorem entriesToApply_eq_above (hstart : firstOf ents ≤ a + 1) : entriesToApply a ents = above a ents := by
  rw [entriesToApply, above, hcons.filter_lt]
  split_ifs with hnil hlt
  · simp [hnil]
  · obtain ⟨hpos, -⟩ := firstOf_add_length_le hcons hb hnil
    congr 1
    unfold uint64
    omega
  · obtain ⟨hpos, -⟩ := firstOf_add_length_le hcons hb hnil
    refine (drop_eq_nil_of_le ?_).symm
    unfold uint64 at hlt
    omega

/-- A batch that starts later is dropped: the number to skip wraps around. -/
theorem entriesToApply_of_gap (hne : ents ≠ []) (hgap : a + 1 < firstOf ents) : entriesToApply a ents = [] := by
  obtain ⟨-, hle⟩ := firstOf_add_length_le hcons hb hne
  rw [entriesToApply, if_neg hne, if_neg]
  unfold uint64
  omega

omit ha hb in
theorem lastOf_above (hne : above a ents ≠ []) : lastOf (above a ents) = lastOf ents := by
  rw [above, hcons.filter_lt] at hne ⊢
  rw [lastOf, getLast?_drop, if_neg (by simpa using hne)]
  rfl

omit ha hb in
theorem above_eq_nil_iff : above a ents = [] ↔ ents = [] ∨ lastOf ents ≤ a := by
  rw [above, hcons.filter_lt, drop_eq_nil_iff]
  by_cases hne : ents = []
  · simp [hne]
  · have hlen := length_pos_iff.mpr hne
    rw [hcons.lastOf_eq hne]
    simp only [hne, false_or]
    omega

/-- **One batch** is handed over as it should be exactly if it does not start after a gap. -/
theorem handed_above_iff {n : RaftNode C} {rd : Ready} (hrd : rd.committed = ents) (hn : n.appliedIndex = a) :
    Handed unmarshal n (n.serve unmarshal rd) (above a ents) ↔ (ents ≠ [] → firstOf ents ≤ a + 1) := by
  have hserve := handed_serve unmarshal n rd
  rw [hrd, hn] at hserve
  constructor
  · intro h hne
    by_contra hgap
    rw [not_le] at hgap
    rw [entriesToApply_of_gap hcons hb ha hne hgap] at hserve
    -- nothing was handed over, so the applied index did not move to the end of the batch
    have hlast := hcons.lastOf_eq hne
    have hsome : above a ents ≠ [] := by
      rw [ne_eq, above_eq_nil_iff hcons]
      rintro (hnil | hle)
      · exact hne hnil
      · omega
    have hold := hserve.appliedIndex
    have hnew := h.appliedIndex
    rw [if_neg hsome, lastOf_above hcons hsome] at hnew
    rw [if_pos rfl] at hold
    omega
  · intro hstart
    by_cases hne : ents = []
    · subst hne
      exact hserve
    · rw [← entriesToApply_eq_above hcons hb ha (hstart hne)]
      exact hserve

omit ha hb in
theorem Handed.appliedIndex_eq_max {n n' : RaftNode C} (h : Handed unmarshal n n' (above n.appliedIndex ents)) :
    n'.appliedIndex = max n.appliedIndex (lastOf ents) := by
  rw [h.appliedIndex]
  split_ifs with hnil
  · rcases (above_eq_nil_iff hcons).mp hnil with rfl | hle
    · simp [lastOf]
    · omega
  · rw [lastOf_above hcons hnil]
    rw [above_eq_nil_iff hcons] at hnil
    omega

end Node

/-! ### A run -/

/-- A node and the batches it is given: each consecutive, none starting before an earlier one. -/
structure ReadyRun (C : Type*) where
  unmarshal : Bytes → Option C
  start : RaftNode C
  readies : List Ready
  start_lt : start.appliedIndex < 2 ^ 64
  consecutive : ∀ rd ∈ readies, Consecutive rd.committed
  inBounds : ∀ rd ∈ readies, InBounds rd.committed
  starts : readies.Pairwise fun rd rd' =>
    rd.committed ≠ [] → rd'.committed ≠ [] → firstOf rd.committed ≤ firstOf rd'.committed

namespace ReadyRun

variable {C : Type*} (r : ReadyRun C)

/-- The node after `k` batches. -/
def state (k : ℕ) : RaftNode C := (r.readies.take k).foldl (RaftNode.serve r.unmarshal) r.start

/-- The entries of batch `k` that are above the applied index when it arrives. -/
def due (k : ℕ) : List Entry := above (r.state k).appliedIndex ((r.readies[k]?.map Ready.committed).getD [])

/-- The highest index applied at the start or committed in the first `k` batches. -/
def covered (k : ℕ) : ℕ := (r.readies.take k).foldl (fun m rd => max m (lastOf rd.committed)) r.start.appliedIndex

/-- No batch starts more than one above what is covered before it. -/
def NoGap : Prop := ∀ k rd, r.readies[k]? = some rd → rd.committed ≠ [] → firstOf rd.committed ≤ r.covered k + 1

/-- Every batch is handed over: exactly its entries above the applied index, and over the whole run in
strictly ascending order. -/
structure AllHanded : Prop where
  handed : ∀ k < r.readies.length, Handed r.unmarshal (r.state k) (r.state (k + 1)) (r.due k)
  ascending : ((range r.readies.length).flatMap r.due).Pairwise fun e e' => e.index < e'.index

variable {r} {k : ℕ} {rd : Ready}

section

variable (hk : r.readies[k]? = some rd)

include hk

theorem state_succ : r.state (k + 1) = (r.state k).serve r.unmarshal rd := by
  rw [state, take_add_one, hk, foldl_append]
  rfl

theorem covered_succ : r.covered (k + 1) = max (r.covered k) (lastOf rd.committed) := by
  rw [covered, take_add_one, hk, foldl_append]
  rfl

theorem due_eq : r.due k = above (r.state k).appliedIndex rd.committed := by
  rw [due, hk]
  rfl

theorem lastOf_lt : lastOf rd.committed < 2 ^ 64 := by
  have hmem := mem_of_getElem? hk
  cases hl : rd.committed.getLast? with
  | none => simp [lastOf, hl]
  | some e =>
    simp only [lastOf, hl]
    exact (r.inBounds rd hmem e (mem_of_getLast? hl)).2

end

theorem covered_mono {j k : ℕ} (hjk : j ≤ k) : r.covered j ≤ r.covered k := by
  induction hjk with
  | refl => exact le_rfl
  | @step k _ ih =>
    refine ih.trans ?_
    cases hk : r.readies[k]? with
    | none =>
      rw [covered, covered, take_add_one, hk, Option.toList_none, append_nil]
    | some rd =>
      rw [covered_succ hk]
      exact le_max_left _ _

theorem covered_lt (k : ℕ) : r.covered k < 2 ^ 64 := by
  induction k with
  | zero => exact r.start_lt
  | succ k ih =>
    cases hk : r.readies[k]? with
    | none =>
      rw [covered, take_add_one, hk]
      simpa [covered] using ih
    | some rd =>
      have := lastOf_lt hk
      rw [covered_succ hk]
      omega

/-- As long as every batch was handed over, the applied index is what is covered. -/
theorem appliedIndex_eq_covered {k : ℕ} (hk : k ≤ r.readies.length)
    (h : ∀ j < k, Handed r.unmarshal (r.state j) (r.state (j + 1)) (r.due j)) :
    (r.state k).appliedIndex = r.covered k := by
  induction k with
  | zero => rfl
  | succ k ih =>
    have hrd : r.readies[k]? = some (r.readies[k]) := getElem?_eq_getElem (by omega)
    have hcons := r.consecutive _ (mem_of_getElem? hrd)
    have hstep := h k (by omega)
    rw [due_eq hrd] at hstep
    rw [hstep.appliedIndex_eq_max r.unmarshal hcons, covered_succ hrd, ih (by omega) fun j hj => h j (by omega)]

/-- **One step of a run.** -/
theorem handed_step_iff (hk : r.readies[k]? = some rd) (hcov : (r.state k).appliedIndex = r.covered k) :
    Handed r.unmarshal (r.state k) (r.state (k + 1)) (r.due k) ↔
      (rd.committed ≠ [] → firstOf rd.committed ≤ r.covered k + 1) := by
  have hmem := mem_of_getElem? hk
  rw [state_succ hk, due_eq hk, hcov]
  exact handed_above_iff r.unmarshal (r.consecutive rd hmem) (r.inBounds rd hmem) (covered_lt k) rfl hcov

theorem handed_of_noGap (h : r.NoGap) {k : ℕ} (hk : k < r.readies.length) :
    Handed r.unmarshal (r.state k) (r.state (k + 1)) (r.due k) := by
  induction k using Nat.strong_induction_on with
  | _ k ih =>
    have hrd : r.readies[k]? = some (r.readies[k]) := getElem?_eq_getElem hk
    have hcov := appliedIndex_eq_covered hk.le fun j hj => ih j hj (by omega)
    exact (handed_step_iff hrd hcov).mpr (h k _ hrd)

theorem ascending_of_handed (h : ∀ k < r.readies.length, Handed r.unmarshal (r.state k) (r.state (k + 1)) (r.due k)) :
    ((range r.readies.length).flatMap r.due).Pairwise fun e e' => e.index < e'.index := by
  have hcov : ∀ {k}, k ≤ r.readies.length → (r.state k).appliedIndex = r.covered k :=
    fun hk => appliedIndex_eq_covered hk fun j hj => h j (by omega)
  refine pairwise_flatMap.mpr ⟨fun k hk => ?_, pairwise_lt_range.imp_of_mem ?_⟩
  · rw [mem_range] at hk
    have hrd : r.readies[k]? = some (r.readies[k]) := getElem?_eq_getElem hk
    rw [due_eq hrd]
    exact (r.consecutive _ (mem_of_getElem? hrd)).pairwise_lt.filter _
  · intro j k hj hk hjk e he e' he'
    rw [mem_range] at hj hk
    have hrd : r.readies[j]? = some (r.readies[j]) := getElem?_eq_getElem hj
    have hrd' : r.readies[k]? = some (r.readies[k]) := getElem?_eq_getElem hk
    rw [due_eq hrd] at he
    rw [due_eq hrd', hcov hk.le] at he'
    -- `e` is covered once its batch is, and `e'` is above what is covered then
    have hle := (r.consecutive _ (mem_of_getElem? hrd)).index_le_lastOf (mem_of_mem_filter he)
    have hlt : r.covered k < e'.index := by simpa using (mem_filter.mp he').2
    have hmono := covered_mono (r := r) (show j + 1 ≤ k by omega)
    rw [covered_succ hrd] at hmono
    omega

/-- **Every committed entry is handed over once and in order** exactly if no batch starts after a
gap. -/
theorem handed_iff_noGap (r : ReadyRun C) : r.AllHanded ↔ r.NoGap := by
  constructor
  · intro h k rd hk
    have hlt : k < r.readies.length := (List.getElem?_eq_some_iff.mp hk).1
    have hcov := appliedIndex_eq_covered hlt.le fun j hj => h.handed j (by omega)
    exact (handed_step_iff hk hcov).mp (h.handed k hlt)
  · intro h
    exact ⟨fun k hk => handed_of_noGap h hk, ascending_of_handed fun k hk => handed_of_noGap h hk⟩

/-- A node that has applied five entries is sent a snapshot of the first ten, and then an entry. -/
def afterSnapshot : ReadyRun Unit where
  unmarshal _ := none
  start := ⟨5, 0, [], []⟩
  readies := [⟨some 10, []⟩, ⟨none, [⟨1, 11, entryNormal, [7]⟩]⟩]
  start_lt := by decide
  consecutive := by decide
  inBounds := by
    intro rd hrd e he
    simp only [mem_cons, not_mem_nil, or_false] at hrd
    rcases hrd with rfl | rfl
    · exact absurd he not_mem_nil
    · rw [mem_singleton] at he
      subst he
      decide
  starts := by simp

/-- The entry after the snapshot is due and is not handed over; the applied index stays. -/
theorem afterSnapshot_dropped :
    afterSnapshot.due 1 = [⟨1, 11, entryNormal, [7]⟩] ∧ (afterSnapshot.state 2).commits = [] ∧
      (afterSnapshot.state 2).snapshotIndex = 10 ∧ (afterSnapshot.state 2).appliedIndex = 5 ∧
      ¬ afterSnapshot.AllHanded := by
  refine ⟨by decide, by decide, by decide, by decide, fun h => ?_⟩
  have hcommits := (h.handed 1 (by decide)).commits
  exact absurd hcommits (by decide)

end ReadyRun

end GeminiTS.Raft
