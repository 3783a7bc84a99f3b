import GeminiTS.Raft.Cleaning
import GeminiTS.Raft.Publish
import GeminiTS.Raft.Storage

/-!
# StoredSnapshot — the snapshot a restart starts from

The index and the term of the last snapshot are one place in the meta file with three writers: `SaveToStorage` with
what raft received, `snapShot` with what was flushed, and `saveConfStateToMeta`, which stores each changed configuration
as a snapshot with index zero (`lib/raftconn/node.go`, `lib/raftlog/meta.go`). A restart replays the log from the index.

* `SnapshotRun.neverBack_replayable_iff` — when both hold; `confChange_goesBack` is a run in which neither does.
-/

namespace GeminiTS.Raft

open Lib List

/-- What raft does with a configuration change: the configuration after it, and whether the `ConfState` it returns has
voters. -/
structure ConfChanges (C R : Type*) where
  unmarshal : Bytes → Option C
  applyConfChange : R → C → R × Bool

/-- A node: raft's configuration, whether the last `ConfState` has voters, and the storage. -/
structure StoringNode (R : Type*) where
  raft : R
  hasVoters : Bool
  store : RaftDiskStorage

inductive NodeOp
  | saveToStorage (entries : List Entry) (snap : Snapshot)
  | publishEntries (ents : List Entry)
  | snapShot (index : ℕ)
  | deleteBefore (index : ℕ)

/-- Where a restart starts to replay the log. -/
def RaftDiskStorage.fromIndex (s : RaftDiskStorage) : ℕ :=
  if s.metaFile.snapshotIndex = 0 then 1 else s.metaFile.snapshotIndex

/-- The index a restart starts from is in the log, or there is neither a log nor a snapshot. -/
def RaftDiskStorage.Replayable (s : RaftDiskStorage) : Prop := s.firstIndex ≤ s.fromIndex ∧
    (s.fromIndex ≤ s.entryLog.lastIndex ∨ s.entryLog.lastIndex = 0 ∧ s.metaFile.snapshotIndex = 0)

/-- Entries continue or overwrite the log above the snapshot, a received snapshot is newer than the stored one, and
files are deleted up to the snapshot only. -/
def RaftDiskStorage.Takes (s : RaftDiskStorage) : NodeOp → Prop
  | .saveToStorage entries snap =>
    (∀ e ∈ entries, e.Fits) ∧ Consecutive entries ∧
      (entries ≠ [] → s.metaFile.snapshotIndex < firstOf entries ∧ s.firstIndex ≤ firstOf entries ∧
        firstOf entries ≤ s.lastIndex + 1) ∧
      (isValidSnapshot snap → s.metaFile.snapshotIndex < snap.index ∧ s.metaFile.snapshotTerm ≤ snap.term)
  | .deleteBefore index => index ≤ s.metaFile.snapshotIndex
  | _ => True

theorem EntryLog.firstIndex_pos (l : EntryLog) : 0 < l.firstIndex := by
  unfold EntryLog.firstIndex
  extract_lets fi
  split_ifs with hfi
  · exact Nat.one_pos
  · exact Nat.pos_of_ne_zero hfi

namespace ConfChanges

variable {C R : Type*} (c : ConfChanges C R)

/-- One of the changes leaves a configuration with voters. -/
def leavesVoters (r : R) : List C → Bool
  | [] => false
  | cc :: ccs => (c.applyConfChange r cc).2 || leavesVoters (c.applyConfChange r cc).1 ccs

/-- The changes in a batch. -/
def changes (ents : List Entry) : List C := ents.filterMap (confChange c.unmarshal)

end ConfChanges

namespace StoringNode

variable {C R : Type*} (c : ConfChanges C R) (n : StoringNode R)

def saveConfStateToMeta : StoringNode R := { n with store := (n.store.save [] ⟨0, 0, n.hasVoters⟩).getD n.store }

/-- The loop of `PublishEntries`, as far as it writes to the storage. -/
def publishChanges (n : StoringNode R) : List C → StoringNode R
  | [] => n
  | cc :: ccs =>
    let conf := c.applyConfChange n.raft cc
    publishChanges (saveConfStateToMeta ⟨conf.1, conf.2, n.store⟩) ccs

def exec : NodeOp → Option (StoringNode R)
  | .saveToStorage entries snap => (n.store.save entries snap).map fun s => { n with store := s }
  | .publishEntries ents => some (n.publishChanges c (c.changes ents))
  | .snapShot index => some { n with store := n.store.createSnapshot index n.hasVoters }
  | .deleteBefore index => some { n with store := n.store.deleteBefore index }

/-- A configuration change is published only while no snapshot is stored, and a snapshot that is made is at or above
the stored one. -/
def Keeps : NodeOp → Prop
  | .publishEntries ents =>
    c.leavesVoters n.raft (c.changes ents) = true →
      n.store.metaFile.snapshotIndex = 0 ∧ n.store.metaFile.snapshotTerm = 0
  | .snapShot index => n.store.firstIndex ≤ index → ∀ e, n.store.entryLog.seekEntry index = .ok e →
      n.store.metaFile.snapshotIndex ≤ index ∧ n.store.metaFile.snapshotTerm ≤ e.term
  | _ => True

/-- A received snapshot is not above the last entry. -/
def Within : NodeOp → Prop
  | .saveToStorage entries snap => isValidSnapshot snap →
      snap.index ≤ if entries = [] then n.store.entryLog.lastIndex else lastOf entries
  | _ => True

/-! ### One operation -/

theorem publishChanges_store (ccs : List C) : (n.publishChanges c ccs).store =
    ⟨n.store.entryLog, if c.leavesVoters n.raft ccs then ⟨0, 0⟩ else n.store.metaFile⟩ := by
  induction ccs generalizing n with
  | nil => rfl
  | cons cc ccs ih =>
    rw [publishChanges, ih, ConfChanges.leavesVoters]
    cases (c.applyConfChange n.raft cc).2 with
    | true =>
      exact congrArg (RaftDiskStorage.mk n.store.entryLog) (ite_self _)
    | false => rfl

/-- **A configuration change stores a snapshot with index zero.** -/
theorem exec_publishEntries (ents : List Entry) : ∃ n', n.exec c (.publishEntries ents) = some n' ∧
    n'.store = ⟨n.store.entryLog,
      if c.leavesVoters n.raft (c.changes ents) then ⟨0, 0⟩ else n.store.metaFile⟩ :=
  ⟨_, rfl, publishChanges_store c n (c.changes ents)⟩

/-- Index and term after an operation. -/
def NotBelow (n n' : StoringNode R) : Prop := n.store.metaFile.snapshotIndex ≤ n'.store.metaFile.snapshotIndex ∧
    n.store.metaFile.snapshotTerm ≤ n'.store.metaFile.snapshotTerm

/-- **One operation** does not go back exactly if it meets its condition. -/
theorem notBelow_iff {op : NodeOp} (hop : n.store.Takes op) {n' : StoringNode R} (hn' : n.exec c op = some n') :
    n.NotBelow n' ↔ n.Keeps c op := by
  cases op with
  | saveToStorage entries snap =>
    refine iff_of_true ?_ trivial
    obtain ⟨s, hs, rfl⟩ := Option.map_eq_some_iff.mp hn'
    obtain ⟨l, -, rfl⟩ := Option.map_eq_some_iff.mp hs
    rw [MetaFile.storeSnapshot]
    split_ifs with hvalid
    · exact ⟨(hop.2.2.2 hvalid).1.le, (hop.2.2.2 hvalid).2⟩
    · exact ⟨le_rfl, le_rfl⟩
  | publishEntries ents =>
    obtain ⟨n1, hn1, hstore⟩ := exec_publishEntries c n ents
    obtain rfl : n1 = n' := Option.some.inj (hn1.symm.trans hn')
    rw [NotBelow, hstore, Keeps]
    split_ifs with hvoters
    · simp only [Nat.le_zero, hvoters, true_implies]
    · exact iff_of_true ⟨le_rfl, le_rfl⟩ fun h => absurd h hvoters
  | snapShot index =>
    obtain rfl := Option.some.inj hn'
    rw [Keeps, RaftDiskStorage.createSnapshot]
    by_cases hfirst : index < n.store.firstIndex
    · simp only [if_pos hfirst]
      exact iff_of_true ⟨le_rfl, le_rfl⟩ fun hle => absurd hle (not_le.mpr hfirst)
    · simp only [if_neg hfirst]
      cases hseek : n.store.entryLog.seekEntry index with
      | error err => exact iff_of_true ⟨le_rfl, le_rfl⟩ fun _ e he => by cases he
      | ok e =>
        have hpos := n.store.entryLog.firstIndex_pos
        rw [RaftDiskStorage.firstIndex, not_lt] at hfirst
        have hvalid : isValidSnapshot ⟨index, e.term, n.hasVoters⟩ = true := by
          rw [isValidSnapshot, Bool.or_eq_true, decide_eq_true_eq]
          exact .inl (by dsimp only; omega)
        simp only [MetaFile.storeSnapshot, if_pos hvalid]
        constructor
        · intro hle _ e' he'
          cases he'
          exact hle
        · exact fun h => h hfirst e rfl
  | deleteBefore index =>
    obtain rfl := Option.some.inj hn'
    exact iff_of_true ⟨le_rfl, le_rfl⟩ trivial

end StoringNode

open StoringNode

/-! ### The log below and above the snapshot -/

theorem EntryLog.Holds.addEntries_ends {l : EntryLog} {fl : Files} (h : l.Holds fl) (hp : fl.Proper)
    {batch : List Entry} (hbatch : Follows fl.entries batch) (hne : batch ≠ []) :
    ∃ l' fl', l.addEntries batch = some l' ∧ l'.Holds fl' ∧ fl'.Proper ∧ fl'.entries ≠ [] ∧
      firstOf fl'.entries = (if fl.entries = [] then firstOf batch else firstOf fl.entries) ∧
      lastOf fl'.entries = lastOf batch := by
  obtain ⟨l', fl', hl', h', hp', hentries⟩ := h.addEntries hp hbatch hne
  refine ⟨l', fl', hl', h', hp', ?_, ?_, ?_⟩
  · rw [hentries]
    exact append_ne_nil_of_right_ne_nil _ hne
  · have hle : fl.entries = [] ∨ firstOf fl.entries ≤ firstOf batch :=
      or_iff_not_imp_left.mpr fun hes => (hbatch.bounds hes hne).1
    have hindex := (h.slotGe hp (firstOf batch)).index_removed hle
    rw [hentries]
    by_cases hkept : (fl.removed (l.slotGe (firstOf batch))).entries = []
    · -- nothing is left of the log, so the batch starts where the log did
      rw [hkept, nil_append]
      rw [hkept] at hindex
      have htake := map_eq_nil_iff.mp hindex.symm
      split_ifs with hnil
      · rfl
      · have hlow := (hbatch.bounds hnil hne).1
        have hzero := (take_eq_nil_iff.mp htake).resolve_right hnil
        omega
    · rw [firstOf_append hkept, firstOf_congr hindex]
      have hnil : fl.entries ≠ [] := by
        intro hnil
        rw [hnil, take_nil] at hindex
        exact hkept (map_eq_nil_iff.mp hindex)
      rw [if_neg hnil]
      refine firstOf_take (Nat.pos_of_ne_zero fun hzero => hkept ?_)
      rw [hzero] at hindex
      exact map_eq_nil_iff.mp hindex
  · rw [hentries, lastOf_append hne]

/-- The log holds entries, it starts at one until there is a snapshot, and the snapshot is at one of the entries. -/
structure RaftDiskStorage.Anchored (s : RaftDiskStorage) (fl : Files) : Prop extends s.Sound fl where
  first : s.metaFile.snapshotIndex = 0 → fl.entries = [] ∨ firstOf fl.entries = 1

namespace RaftDiskStorage.Anchored

variable {s : RaftDiskStorage} {fl : Files} (h : s.Anchored fl)

include h

/-- **A restart finds its index in the log.** -/
theorem replayable : s.Replayable := by
  have hfirst : s.firstIndex = if fl.entries = [] then 1 else firstOf fl.entries := h.holds.firstIndex
  have hlast := h.holds.lastIndex h.proper
  rw [RaftDiskStorage.Replayable, hfirst, hlast, RaftDiskStorage.fromIndex]
  by_cases hzero : s.metaFile.snapshotIndex = 0
  · rw [if_pos hzero]
    rcases h.first hzero with hnil | hone
    · rw [hnil]
      exact ⟨le_rfl, .inr ⟨rfl, hzero⟩⟩
    · by_cases hnil : fl.entries = []
      · rw [hnil] at hone
        cases hone
      · have hend := h.holds.consecutive.lastOf_eq hnil
        rw [if_neg hnil]
        exact ⟨hone.le, .inl (by omega)⟩
  · obtain ⟨hne, hlow, hhigh⟩ := h.snapshot.resolve_left hzero
    rw [if_neg hzero, if_neg hne]
    exact ⟨hlow, .inl hhigh⟩

theorem saveToStorage {entries : List Entry} {snap : Snapshot} (hop : s.Takes (.saveToStorage entries snap)) :
    ∃ l' fl', s.entryLog.addEntries entries = some l' ∧ RaftDiskStorage.Anchored ⟨l', s.metaFile⟩ fl' ∧
      l'.lastIndex = (if entries = [] then s.entryLog.lastIndex else lastOf entries) := by
  obtain ⟨hfits, hcons, hbounds, -⟩ := hop
  by_cases hnil : entries = []
  · subst hnil
    exact ⟨s.entryLog, fl, rfl, h, (if_pos rfl).symm⟩
  obtain ⟨habove, hlow, hhigh⟩ := hbounds hnil
  have hfirst : s.firstIndex = if fl.entries = [] then 1 else firstOf fl.entries := h.holds.firstIndex
  have hlast := h.lastIndex
  have hfollows : Follows fl.entries entries := by
    refine ⟨hfits, hcons, fun hes _ => ?_⟩
    rw [if_neg hes] at hfirst
    rw [← hfirst, ← hlast]
    exact ⟨hlow, hhigh⟩
  obtain ⟨l', fl', hl', h', hp', hne', hfirst', hlast'⟩ := h.holds.addEntries_ends h.proper hfollows hnil
  refine ⟨l', fl', hl', ⟨⟨h', hp', h.snapshot.imp_right ?_⟩, fun hzero => .inr ?_⟩, ?_⟩
  · rintro ⟨hes, hle, -⟩
    rw [if_neg hes] at hfirst'
    have hend := hcons.lastOf_eq hnil
    rw [hfirst']
    exact ⟨hne', hle, by dsimp only; omega⟩
  · rw [hfirst']
    rcases h.first hzero with hes | hone
    · rw [if_pos hes] at hfirst ⊢
      have hend : s.lastIndex = 0 := by rw [hlast, hes]; rfl
      omega
    · by_cases hes : fl.entries = []
      · rw [hes] at hone
        cases hone
      · rw [if_neg hes]
        exact hone
  · rw [if_neg hnil, h'.lastIndex hp', hlast']

theorem createSnapshot (index : ℕ) (hasVoters : Bool) : (s.createSnapshot index hasVoters).Anchored fl := by
  refine ⟨h.toSound.createSnapshot index hasVoters, fun hzero => h.first ?_⟩
  have hpos := s.entryLog.firstIndex_pos
  rw [RaftDiskStorage.createSnapshot, RaftDiskStorage.firstIndex] at hzero
  split_ifs at hzero with hfirst
  · exact hzero
  · cases hseek : s.entryLog.seekEntry index with
    | error err =>
      rw [hseek] at hzero
      exact hzero
    | ok e =>
      rw [hseek] at hzero
      simp only [MetaFile.storeSnapshot] at hzero
      split_ifs at hzero
      · simp only at hzero
        omega
      · exact hzero

theorem deleteBefore {index : ℕ} (hindex : index ≤ s.metaFile.snapshotIndex) :
    ∃ fl', (s.deleteBefore index).Anchored fl' := by
  by_cases hzero : s.metaFile.snapshotIndex = 0
  · have hdrop : fl.droppedBy (s.entryLog.slotGe index) = 0 := by
      have := (h.holds.slotGe h.proper index).droppedBy_le
      omega
    have hentries : (fl.keptFrom (s.entryLog.slotGe index)).entries = fl.entries := by
      rw [fl.entries_keptFrom, hdrop, drop_zero]
    refine ⟨_, ⟨h.holds.deleteBefore h.proper index, h.proper.keptFrom _, .inl hzero⟩, ?_⟩
    rw [hentries]
    exact h.first
  · obtain ⟨fl', h'⟩ := h.toSound.deleteBefore hindex
    exact ⟨fl', h', fun h0 => absurd h0 hzero⟩

end RaftDiskStorage.Anchored

namespace StoringNode

variable {C R : Type*} {c : ConfChanges C R} {n : StoringNode R} {op : NodeOp} {fl : Files}

/-- **An operation that meets its conditions** keeps the snapshot in the log. -/
theorem exec_anchored (h : n.store.Anchored fl) (hop : n.store.Takes op) (hkeeps : n.Keeps c op)
    (hwithin : n.Within op) : ∃ n' fl', n.exec c op = some n' ∧ n'.store.Anchored fl' := by
  cases op with
  | saveToStorage entries snap =>
    obtain ⟨l', fl', hl', h', hlast⟩ := h.saveToStorage hop
    refine ⟨{ n with store := ⟨l', n.store.metaFile.storeSnapshot snap⟩ }, fl', ?_, ?_⟩
    · rw [exec, RaftDiskStorage.save, hl']
      rfl
    · by_cases hvalid : isValidSnapshot snap = true
      · have hnewer := (hop.2.2.2 hvalid).1
        have hle := hwithin hvalid
        rw [← hlast, h'.holds.lastIndex h'.proper] at hle
        rw [MetaFile.storeSnapshot, if_pos hvalid]
        have hne : fl'.entries ≠ [] := by
          intro hnil
          rw [hnil] at hle
          exact absurd (hnewer.trans_le hle) (Nat.not_lt_zero _)
        refine ⟨⟨h'.holds, h'.proper, .inr ⟨hne, ?_, hle⟩⟩, fun hzero => ?_⟩
        · rcases h'.snapshot with hzero | ⟨-, hlow, -⟩
          · have hone := (h'.first hzero).resolve_left hne
            dsimp only
            omega
          · exact hlow.trans hnewer.le
        · dsimp only at hzero
          omega
      · rw [MetaFile.storeSnapshot, if_neg hvalid]
        exact h'
  | publishEntries ents =>
    obtain ⟨n', hn', hstore⟩ := exec_publishEntries c n ents
    refine ⟨n', fl, hn', ?_⟩
    have hsame : n'.store = n.store := by
      rw [hstore]
      split_ifs with hvoters
      · obtain ⟨hindex, hterm⟩ := hkeeps hvoters
        rw [← hindex]
        nth_rewrite 2 [← hterm.trans hindex.symm]
        rfl
      · rfl
    rw [hsame]
    exact h
  | snapShot index => exact ⟨_, fl, rfl, h.createSnapshot index n.hasVoters⟩
  | deleteBefore index =>
    obtain ⟨fl', h'⟩ := h.deleteBefore hop
    exact ⟨_, fl', rfl, h'⟩

theorem within_of_replayable (h : n.store.Anchored fl) (hop : n.store.Takes op)
    (hnext : ∀ n', n.exec c op = some n' → n'.store.Replayable) : n.Within op := by
  cases op with
  | publishEntries ents | snapShot index | deleteBefore index => trivial
  | saveToStorage entries snap =>
    intro hvalid
    obtain ⟨l', fl', hl', h', hlast⟩ := h.saveToStorage hop
    have hnewer := (hop.2.2.2 hvalid).1
    have hreplay := hnext { n with store := ⟨l', n.store.metaFile.storeSnapshot snap⟩ } (by
      rw [exec, RaftDiskStorage.save, hl']
      rfl)
    rw [MetaFile.storeSnapshot, if_pos hvalid] at hreplay
    obtain ⟨-, hle⟩ := hreplay
    rw [RaftDiskStorage.fromIndex] at hle
    dsimp only at hle
    rw [if_neg (by omega)] at hle
    omega

end StoringNode

/-! ### Runs -/

/-- A run of a new node, each operation being one it may be asked for; the indexes of its own snapshots do not
decrease. -/
structure SnapshotRun (C R : Type*) where
  confChanges : ConfChanges C R
  raft : R
  hasVoters : Bool
  ops : List NodeOp
  takes : ∀ k op n, ops[k]? = some op →
    run (StoringNode.exec confChanges) ⟨raft, hasVoters, .empty⟩ (ops.take k) = some n → n.store.Takes op
  ascending : ops.Pairwise fun a b => ∀ i j, a = .snapShot i → b = .snapShot j → i ≤ j

namespace SnapshotRun

variable {C R : Type*} (r : SnapshotRun C R)

/-- The node after `k` operations. -/
def state (k : ℕ) : Option (StoringNode R) :=
  run (StoringNode.exec r.confChanges) ⟨r.raft, r.hasVoters, .empty⟩ (r.ops.take k)

/-- The stored index and term never decrease. -/
def NeverBack : Prop := ∀ i j n n', i ≤ j → j ≤ r.ops.length → r.state i = some n → r.state j = some n' → n.NotBelow n'

/-- A restart always finds its index in the log. -/
def Replayable : Prop := ∀ k n, k ≤ r.ops.length → r.state k = some n → n.store.Replayable

variable {r}

theorem state_succ {k : ℕ} {op : NodeOp} (hop : r.ops[k]? = some op) :
    r.state (k + 1) = (r.state k).bind fun n => n.exec r.confChanges op := run_take_succ _ _ hop

theorem neverBack_iff : r.NeverBack ↔
    ∀ k op n, r.ops[k]? = some op → r.state k = some n → n.Keeps r.confChanges op := by
  constructor
  · intro hback k op n hop hn
    have hk := (List.getElem?_eq_some_iff.mp hop).1
    cases hn' : n.exec r.confChanges op with
    | some n' =>
      refine (n.notBelow_iff r.confChanges (r.takes k op n hop hn) hn').mp ?_
      refine hback k (k + 1) n n' (Nat.le_succ k) hk hn ?_
      rw [state_succ hop, hn, Option.bind_some, hn']
    | none =>
      -- only `saveToStorage` can fail
      cases op with
      | saveToStorage entries snap | deleteBefore index => trivial
      | publishEntries ents | snapShot index => cases hn'
  · intro hkeeps i j n n' hij
    induction j, hij using Nat.le_induction generalizing n' with
    | base =>
      intro _ hn hn'
      cases hn.symm.trans hn'
      exact ⟨le_rfl, le_rfl⟩
    | succ j hij ih =>
      intro hj hn hn'
      have hop := getElem?_eq_getElem hj
      rw [state_succ hop] at hn'
      obtain ⟨n1, hn1, hexec⟩ := Option.bind_eq_some_iff.mp hn'
      have hstep := (n1.notBelow_iff r.confChanges (r.takes j _ n1 hop hn1) hexec).mpr (hkeeps j _ n1 hop hn1)
      have hbefore := ih n1 (Nat.le_of_succ_le hj) hn hn1
      exact ⟨hbefore.1.trans hstep.1, hbefore.2.trans hstep.2⟩

theorem anchored_empty : RaftDiskStorage.empty.Anchored ⟨[], []⟩ := ⟨.empty, fun _ => Or.inl rfl⟩

/-- As long as the operations meet their conditions the snapshot is in the log. -/
theorem anchored {k : ℕ} (hk : k ≤ r.ops.length)
    (h : ∀ j < k, ∀ op n, r.ops[j]? = some op → r.state j = some n → n.Keeps r.confChanges op ∧ n.Within op) :
    ∃ n fl, r.state k = some n ∧ n.store.Anchored fl := by
  induction k with
  | zero => exact ⟨_, _, rfl, anchored_empty⟩
  | succ k ih =>
    obtain ⟨n, fl, hn, ha⟩ := ih (Nat.le_of_succ_le hk) fun j hj => h j (Nat.lt_succ_of_lt hj)
    have hop := getElem?_eq_getElem hk
    obtain ⟨hkeeps, hwithin⟩ := h k (Nat.lt_succ_self k) _ n hop hn
    obtain ⟨n', fl', hn', ha'⟩ := exec_anchored ha (r.takes k _ n hop hn) hkeeps hwithin
    exact ⟨n', fl', by rw [state_succ hop, hn, Option.bind_some, hn'], ha'⟩

/-- **The stored snapshot never goes back** exactly if configuration changes are published only while none is stored
and none is made below it; a restart then finds its index in the log exactly if no received one is above the log. -/
theorem neverBack_replayable_iff (r : SnapshotRun C R) :
    (r.NeverBack ↔ ∀ k op n, r.ops[k]? = some op → r.state k = some n → n.Keeps r.confChanges op) ∧
      (r.NeverBack ∧ r.Replayable ↔ ∀ k op n, r.ops[k]? = some op → r.state k = some n →
        n.Keeps r.confChanges op ∧ n.Within op) := by
  refine ⟨neverBack_iff, ?_, ?_⟩
  · rintro ⟨hback, hreplay⟩ k
    have hkeeps := neverBack_iff.mp hback
    induction k using Nat.strong_induction_on with
    | _ k ih =>
      intro op n hop hn
      have hk := (List.getElem?_eq_some_iff.mp hop).1
      obtain ⟨n1, fl, hn1, ha⟩ := anchored hk.le ih
      obtain rfl : n1 = n := Option.some.inj (hn1.symm.trans hn)
      have htakes := r.takes k op n1 hop hn
      refine ⟨hkeeps k op n1 hop hn, within_of_replayable (c := r.confChanges) ha htakes fun n' hn' => ?_⟩
      exact hreplay (k + 1) n' hk (by rw [state_succ hop, hn, Option.bind_some, hn'])
  · intro h
    refine ⟨neverBack_iff.mpr fun k op n hop hn => (h k op n hop hn).1, fun k n hk hn => ?_⟩
    obtain ⟨n1, fl, hn1, ha⟩ := anchored hk fun j _ op n => h j op n
    obtain rfl : n1 = n := Option.some.inj (hn1.symm.trans hn)
    exact ha.replayable

/-! ### A run that goes back -/

section GoesBack

open Cleaning (twoFiles)

theorem addEntries_twoFiles : EntryLog.empty.addEntries (LogRun.firstBatch LogRun.zeroFilling) = some twoFiles.log := by
  unfold twoFiles
  rw [Option.some_get]

theorem seekEntry_twoFiles : ∃ e, twoFiles.log.seekEntry 3 = .ok e ∧ e.term = 1 := by
  have hterm : twoFiles.log.term 3 = .ok 1 := twoFiles.holds.term twoFiles.proper 3
  rw [EntryLog.term] at hterm
  cases hseek : twoFiles.log.seekEntry 3 with
  | error err =>
    rw [hseek] at hterm
    cases hterm
  | ok e =>
    rw [hseek] at hterm
    exact ⟨e, rfl, Except.ok.inj hterm⟩

theorem firstIndex_twoFiles : twoFiles.log.firstIndex = 1 := twoFiles.holds.firstIndex

theorem createSnapshot_twoFiles :
    RaftDiskStorage.createSnapshot ⟨twoFiles.log, ⟨0, 0⟩⟩ 3 true = ⟨twoFiles.log, ⟨3, 1⟩⟩ := by
  obtain ⟨e, hseek, hterm⟩ := seekEntry_twoFiles
  have hfirst : ¬ 3 < RaftDiskStorage.firstIndex ⟨twoFiles.log, ⟨0, 0⟩⟩ := by
    rw [RaftDiskStorage.firstIndex, firstIndex_twoFiles]
    decide
  rw [RaftDiskStorage.createSnapshot, if_neg hfirst, hseek]
  dsimp only
  rw [hterm]
  rfl

/-- Every change is read, and leaves voters. -/
def anyChange : ConfChanges Unit Unit := ⟨fun _ => some (), fun _ _ => ((), true)⟩

/-- Entries, a snapshot at the last one, the files before it are deleted, a configuration change. -/
def confChangeOps (batch : List Entry) : List NodeOp :=
  [.saveToStorage batch ⟨0, 0, false⟩, .snapShot 3, .deleteBefore 3, .publishEntries [⟨1, 4, entryConfChange, []⟩]]

/-- The storage after each of them. -/
def confChangeStores (l : EntryLog) : List RaftDiskStorage :=
  [.empty, ⟨l, ⟨0, 0⟩⟩, ⟨l, ⟨3, 1⟩⟩, ⟨l.deleteBefore 3, ⟨3, 1⟩⟩, ⟨l.deleteBefore 3, ⟨0, 0⟩⟩]

variable {l : EntryLog} {k : ℕ} {s : RaftDiskStorage}

theorem run_confChangeOps {batch : List Entry} (hadd : EntryLog.empty.addEntries batch = some l)
    (hsnap : RaftDiskStorage.createSnapshot ⟨l, ⟨0, 0⟩⟩ 3 true = ⟨l, ⟨3, 1⟩⟩) (hs : (confChangeStores l)[k]? = some s) :
    run (exec anyChange) ⟨(), true, .empty⟩ ((confChangeOps batch).take k) = some ⟨(), true, s⟩ := by
  have h1 : run (exec anyChange) ⟨(), true, .empty⟩ ((confChangeOps batch).take 1) = some ⟨(), true, ⟨l, ⟨0, 0⟩⟩⟩ := by
    unfold confChangeOps
    rw [take_succ_cons, run, exec, RaftDiskStorage.save, RaftDiskStorage.empty, hadd]
    rfl
  have h2 : run (exec anyChange) ⟨(), true, .empty⟩ ((confChangeOps batch).take 2) = some ⟨(), true, ⟨l, ⟨3, 1⟩⟩⟩ := by
    rw [run_take_succ _ _ rfl, h1, Option.bind_some, exec, hsnap]
  have h3 : run (exec anyChange) ⟨(), true, .empty⟩ ((confChangeOps batch).take 3) =
      some ⟨(), true, ⟨l.deleteBefore 3, ⟨3, 1⟩⟩⟩ := by
    rw [run_take_succ _ _ rfl, h2]
    rfl
  match k with
  | 0 =>
    cases hs
    rfl
  | 1 =>
    cases hs
    exact h1
  | 2 =>
    cases hs
    exact h2
  | 3 =>
    cases hs
    exact h3
  | 4 =>
    cases hs
    rw [run_take_succ _ _ rfl, h3]
    rfl
  | k + 5 => cases hs

theorem takes_firstBatch (fill : LogRun.Filling) :
    RaftDiskStorage.empty.Takes (.saveToStorage (LogRun.firstBatch fill) ⟨0, 0, false⟩) := by
  have hfirst : RaftDiskStorage.empty.firstIndex = 1 := EntryLog.Holds.empty.firstIndex
  refine ⟨LogRun.fits_firstBatch fill, rfl, fun _ => ⟨Nat.one_pos, ?_, ?_⟩, fun hvalid => by cases hvalid⟩
  · rw [hfirst]
    exact le_rfl
  · exact Nat.le_add_left 1 _

theorem takes_confChangeOps {fill : LogRun.Filling} (hadd : EntryLog.empty.addEntries (LogRun.firstBatch fill) = some l)
    (hsnap : RaftDiskStorage.createSnapshot ⟨l, ⟨0, 0⟩⟩ 3 true = ⟨l, ⟨3, 1⟩⟩) {op : NodeOp} {n : StoringNode Unit}
    (hop : (confChangeOps (LogRun.firstBatch fill))[k]? = some op)
    (hn : run (exec anyChange) ⟨(), true, .empty⟩ ((confChangeOps (LogRun.firstBatch fill)).take k) = some n) :
    n.store.Takes op := by
  have hrun (s : RaftDiskStorage) (hs : (confChangeStores l)[k]? = some s) : n = ⟨(), true, s⟩ :=
    Option.some.inj (hn.symm.trans (run_confChangeOps hadd hsnap hs))
  rcases k with _ | _ | _ | _ | k
  · rw [hrun .empty rfl, ← Option.some.inj hop]
    exact takes_firstBatch fill
  · rw [← Option.some.inj hop]
    trivial
  · rw [hrun ⟨l, ⟨3, 1⟩⟩ rfl, ← Option.some.inj hop]
    exact le_refl 3
  · rw [← Option.some.inj hop]
    trivial
  · cases hop

/-- The run with entries in two files. -/
def confChangeRun : SnapshotRun Unit Unit where
  confChanges := anyChange
  raft := ()
  hasVoters := true
  ops := confChangeOps (LogRun.firstBatch LogRun.zeroFilling)
  takes _ _ _ := takes_confChangeOps addEntries_twoFiles createSnapshot_twoFiles
  ascending := by
    unfold confChangeOps
    simp

theorem state_confChangeRun (hs : (confChangeStores twoFiles.log)[k]? = some s) :
    confChangeRun.state k = some ⟨(), true, s⟩ :=
  run_confChangeOps addEntries_twoFiles createSnapshot_twoFiles hs

theorem firstIndex_deleteBefore_twoFiles : (twoFiles.log.deleteBefore 3).firstIndex = 3 := by
  have h := (twoFiles.holds.deleteBefore twoFiles.proper 3).firstIndex
  rw [Files.entries_keptFrom, Cleaning.slotGe_twoFiles] at h
  exact h

/-- **After a configuration change** the stored index is 0, below the 3 it was before, and a restart starts to replay at
1, which is not in the log any more. -/
theorem confChange_goesBack : ∃ n n', confChangeRun.state 3 = some n ∧ confChangeRun.state 4 = some n' ∧
    n.store.metaFile.snapshotIndex = 3 ∧ n'.store.metaFile.snapshotIndex = 0 ∧ n'.store.fromIndex = 1 ∧
    n'.store.firstIndex = 3 ∧ ¬ confChangeRun.NeverBack ∧ ¬ confChangeRun.Replayable := by
  have h3 := state_confChangeRun (k := 3) rfl
  have h4 := state_confChangeRun (k := 4) rfl
  have hfirst : RaftDiskStorage.firstIndex ⟨twoFiles.log.deleteBefore 3, ⟨0, 0⟩⟩ = 3 := by
    rw [RaftDiskStorage.firstIndex, firstIndex_deleteBefore_twoFiles]
  have hlen : 4 ≤ confChangeRun.ops.length := by
    unfold confChangeRun confChangeOps
    simp
  refine ⟨_, _, h3, h4, rfl, rfl, rfl, hfirst, fun hback => ?_, fun hreplay => ?_⟩
  · have hle := (hback 3 4 _ _ (Nat.le_succ 3) hlen h3 h4).1
    exact absurd hle (by decide : ¬ 3 ≤ 0)
  · have hle := (hreplay 4 _ hlen h4).1
    rw [hfirst] at hle
    exact absurd hle (by decide : ¬ 3 ≤ 1)

end GoesBack

end SnapshotRun

end GeminiTS.Raft
