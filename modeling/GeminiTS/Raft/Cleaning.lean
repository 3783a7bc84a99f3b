import GeminiTS.Raft.EntryLogRun

/-!
# Cleaning — the command that cleans the raft logs of a group

`prepareDeleteEntryLogProposeData` of `lib/raftconn/node.go`, `DataWrapper` of `lib/raftlog/datawrapper.go` and the
branch of `dealCommitData` in `engine/partition_raft.go` that deletes files. The leader proposes an index,
and every member deletes the files before the one with that index.

* `Cleaning.safe_iff` — cleaning removes only what is below the member's snapshot exactly if the member's
  file with the index starts at or below it; `laggingMember_loses_entries` is a member that loses others.
-/

namespace GeminiTS.Raft

open Lib List

/-! ### The command -/

inductive DataType
  | normal
  | snapshot
  | clearEntryLog
  | unknown (n : ℕ)
deriving DecidableEq

namespace DataType

def toNat : DataType → ℕ
  | normal => 0
  | snapshot => 1
  | clearEntryLog => 2
  | unknown n => n

def ofNat : ℕ → DataType
  | 0 => normal
  | 1 => snapshot
  | 2 => clearEntryLog
  | n => unknown n

end DataType

structure DataWrapper where
  data : Bytes
  dataType : DataType
  identity : Bytes
  proposeId : ℕ
deriving DecidableEq

namespace DataWrapper

def marshal (d : DataWrapper) : Bytes :=
  beBytes 4 d.dataType.toNat ++ [UInt8.ofNat d.identity.length] ++ d.identity ++ beBytes 8 d.proposeId ++ d.data

/-- Why data cannot be read. -/
inductive UnmarshalError
  | outOfRange
  | noData
deriving DecidableEq

def unmarshal (dst : Bytes) : Except UnmarshalError DataWrapper :=
  match dst.drop 4 with
  | [] => .error .outOfRange
  | l :: rest =>
    if rest.length + 1 ≤ l.toNat then .error .noData
    else if (rest.drop l.toNat).length < 8 then .error .outOfRange
    else .ok ⟨(rest.drop l.toNat).drop 8, .ofNat (beNat (dst.take 4)), rest.take l.toNat,
      beNat ((rest.drop l.toNat).take 8)⟩

/-- **A command arrives as it was proposed.** -/
theorem unmarshal_marshal {d : DataWrapper} (htype : DataType.ofNat (d.dataType.toNat % 2 ^ 32) = d.dataType)
    (hid : d.identity.length < 256) (hpropose : d.proposeId < 2 ^ 64) : unmarshal d.marshal = .ok d := by
  have hl : (UInt8.ofNat d.identity.length).toNat = d.identity.length := by
    rw [UInt8.toNat_ofNat', Nat.mod_eq_of_lt hid]
  have hmarshal : d.marshal = beBytes 4 d.dataType.toNat ++
      (UInt8.ofNat d.identity.length :: (d.identity ++ (beBytes 8 d.proposeId ++ d.data))) := by
    simp [marshal]
  have htake : d.marshal.take 4 = beBytes 4 d.dataType.toNat := by
    exact take_left' (length_beBytes 4 _)
  have hdrop : d.marshal.drop 4 =
      UInt8.ofNat d.identity.length :: (d.identity ++ (beBytes 8 d.proposeId ++ d.data)) := by
    rw [hmarshal]
    exact drop_left' (length_beBytes 4 _)
  have htype' : DataType.ofNat (beNat (beBytes 4 d.dataType.toNat)) = d.dataType := by
    rw [beNat_beBytes_mod]
    exact htype
  have hpid : beNat ((beBytes 8 d.proposeId ++ d.data).take 8) = d.proposeId := by
    rw [take_left' (length_beBytes 8 _)]
    exact beNat_beBytes hpropose
  rw [unmarshal, hdrop]
  simp only [hl, htake, drop_left, take_left, htype', hpid, drop_left' (length_beBytes 8 _)]
  rw [if_neg (by rw [length_append]; omega), if_neg (by rw [length_append, length_beBytes]; omega)]

end DataWrapper

/-- The smallest `Match`, or the largest number if there is none. -/
def minMatch (progress : List ℕ) : ℕ := progress.foldl (fun m v => if v < m then v else m) maxUint64

/-- The index the leader proposes: its snapshot's, if the smallest `Match` is in the same file. -/
def proposedIndex (store : EntryLog) (progress : List ℕ) (index : ℕ) : ℕ :=
  if (store.slotGe (minMatch progress)).1 ≠ (store.slotGe index).1 then minMatch progress else index

def prepareDeleteEntryLogProposeData (store : EntryLog) (progress : List ℕ) (index : ℕ) : Bytes :=
  DataWrapper.marshal ⟨beBytes 8 (proposedIndex store progress index), .clearEntryLog, [], 0⟩

/-- What committed data does to the log; data that cannot be read leaves it alone, and a command without an
index panics. -/
def dealCommitData (store : EntryLog) (data : Bytes) : Option EntryLog :=
  match DataWrapper.unmarshal data with
  | .error _ => some store
  | .ok dw =>
    match dw.dataType with
    | .clearEntryLog => if dw.data.length < 8 then none else some (store.deleteBefore (beNat (dw.data.take 8)))
    | _ => some store

theorem dealCommitData_prepare (member store : EntryLog) {progress : List ℕ} {index : ℕ}
    (h : proposedIndex store progress index < 2 ^ 64) :
    dealCommitData member (prepareDeleteEntryLogProposeData store progress index) =
      some (member.deleteBefore (proposedIndex store progress index)) := by
  rw [dealCommitData, prepareDeleteEntryLogProposeData, DataWrapper.unmarshal_marshal rfl (by simp) (by simp)]
  have hlen := length_beBytes 8 (proposedIndex store progress index)
  simp only [hlen, lt_irrefl, if_false]
  rw [take_of_length_le hlen.le, beNat_beBytes h]

/-! ### What is removed -/

namespace EntryLog

/-- All entries, as they are read. -/
def readAll (size : Entry → ℕ) (l : EntryLog) : List Entry :=
  (l.allEntries size l.firstIndex (l.lastIndex + 1) maxUint64).getD []

/-- The entry is read before the command and not after it. -/
def Removes (size : Entry → ℕ) (l : EntryLog) (data : Bytes) (e : Entry) : Prop :=
  e ∈ l.readAll size ∧ ∃ l', dealCommitData l data = some l' ∧ e ∉ l'.readAll size

/-- The file with the index, if there is one before it, starts at or below the snapshot. -/
def StartsBy (l : EntryLog) (raftIndex snapshot : ℕ) : Prop :=
  match l.slotGe raftIndex with
  | (_, none) => True
  | (none, some _) => l.files = [] ∨ l.current.firstIndex ≤ snapshot
  | (some i, some _) => i = 0 ∨ ∀ f, l.files[i]? = some f → f.firstIndex ≤ snapshot

end EntryLog

/-- The entries dropped from the front of a list of consecutive ones. -/
theorem Consecutive.dropped_lt_iff {es : List Entry} (h : Consecutive es) {d : ℕ} (hd : d ≤ es.length) (s : ℕ) :
    (∀ e ∈ es, e ∉ es.drop d → e.index < s) ↔ d = 0 ∨ firstOf es + d ≤ s := by
  constructor
  · intro hall
    by_contra hcond
    have hi : d - 1 < es.length := by omega
    have hindex := h.index_getElem hi
    have hnot : es[d - 1] ∉ es.drop d := by
      intro hmem
      obtain ⟨j, hj, hje⟩ := getElem_of_mem hmem
      rw [length_drop] at hj
      have hindex' := h.index_getElem (by omega : d + j < es.length)
      rw [getElem_drop] at hje
      rw [hje] at hindex'
      omega
    have := hall _ (getElem_mem hi) hnot
    omega
  · intro hcond e he hnot
    obtain ⟨i, hi, rfl⟩ := getElem_of_mem he
    have hlt : i < d := by
      by_contra hge
      refine hnot (mem_iff_getElem.mpr ⟨i - d, by rw [length_drop]; omega, ?_⟩)
      rw [getElem_drop]
      congr 1
      omega
    rw [h.index_getElem hi]
    omega

namespace EntryLog.Holds

variable {l : EntryLog} {fl : Files} (h : l.Holds fl) (hp : fl.Proper)

include h hp

theorem readAll (size : Entry → ℕ) : l.readAll size = fl.entries := by
  rw [EntryLog.readAll, h.allEntries hp size, Option.getD_some]

omit h hp in
theorem droppedBy_le_length (fl : Files) (loc : Option ℕ × Option ℕ) : fl.droppedBy loc ≤ fl.entries.length := by
  have hlen : fl.entries.length = fl.rotated.flatten.length + fl.last.length := by
    rw [Files.entries, length_map, Files.placed, length_append]
  rcases loc with ⟨fidx | i, off | k⟩
  · exact Nat.zero_le _
  · rw [hlen]
    exact Nat.le_add_right _ _
  · exact Nat.zero_le _
  · have hsub : (fl.rotated.take i).flatten.length ≤ fl.rotated.flatten.length := by
      conv_rhs => rw [← take_append_drop i fl.rotated, flatten_append, length_append]
      exact Nat.le_add_right _ _
    rw [hlen]
    exact hsub.trans (Nat.le_add_right _ _)

/-- **What a member removes**, given the index. -/
theorem removed_lt_iff {size : Entry → ℕ} {data : Bytes} {p : ℕ}
    (hdata : dealCommitData l data = some (l.deleteBefore p))
    (s : ℕ) : (∀ e, l.Removes size data e → e.index < s) ↔
      fl.droppedBy (l.slotGe p) = 0 ∨ firstOf fl.entries + fl.droppedBy (l.slotGe p) ≤ s := by
  have hread := h.readAll hp size
  have hread' := (h.deleteBefore hp p).readAll (hp.keptFrom _) size
  rw [fl.entries_keptFrom] at hread'
  rw [← h.consecutive.dropped_lt_iff (droppedBy_le_length fl _) s]
  constructor
  · intro hall e he hnot
    exact hall e ⟨hread ▸ he, _, hdata, hread' ▸ hnot⟩
  · rintro hall e ⟨he, l', hl', hnot⟩
    obtain rfl : l.deleteBefore p = l' := Option.some.inj (hdata.symm.trans hl')
    exact hall e (hread ▸ he) (hread' ▸ hnot)

theorem startsBy_iff (p s : ℕ) : l.StartsBy p s ↔
    fl.droppedBy (l.slotGe p) = 0 ∨ firstOf fl.entries + fl.droppedBy (l.slotGe p) ≤ s := by
  have hloc := h.slotGe hp p
  rw [EntryLog.StartsBy]
  cases hpos : l.slotGe p with
  | mk fidx off =>
    rw [hpos] at hloc
    cases hloc with
    | below => exact iff_of_true trivial (.inl rfl)
    | current hne hle =>
      have hfiles : l.files = [] ↔ fl.rotated.flatten.length = 0 := by
        rw [h.flatten_length_eq_zero_iff, ← length_eq_zero_iff, ← length_eq_zero_iff, h.files.length_eq]
      simp only [Files.droppedBy]
      rw [hfiles, h.current.firstIndex, (h.last hne).2]
    | @rotated i ls hi hle hlt =>
      obtain ⟨f, hf, -, -, -, hfirst⟩ := h.file hi
      have hi' := (List.getElem?_eq_some_iff.mp hi).1.le
      simp only [Files.droppedBy, h.before_eq_zero_iff hi', hf, Option.some.injEq, forall_eq', hfirst]

end EntryLog.Holds

/-! ### The group -/

/-- A log with the entries it holds. -/
structure StoredLog where
  log : EntryLog
  files : Files
  holds : log.Holds files
  proper : files.Proper

theorem minMatch_le (progress : List ℕ) : minMatch progress ≤ maxUint64 := by
  have hfold : ∀ m, m ≤ maxUint64 → progress.foldl (fun m v => if v < m then v else m) m ≤ maxUint64 := by
    induction progress with
    | nil => exact fun m hm => hm
    | cons v vs ih =>
      intro m hm
      refine ih _ ?_
      show (if v < m then v else m) ≤ maxUint64
      split_ifs <;> omega
  exact hfold maxUint64 le_rfl

/-- A leader and a member, their snapshots, and how far the leader knows the members to be. -/
structure Cleaning where
  leader : StoredLog
  member : StoredLog
  leaderSnapshot : ℕ
  memberSnapshot : ℕ
  progress : List ℕ
  leaderSnapshot_le : leaderSnapshot ≤ leader.log.lastIndex
  memberSnapshot_le : memberSnapshot ≤ member.log.lastIndex

namespace Cleaning

variable (c : Cleaning)

/-- The command the leader builds. -/
def command : Bytes := prepareDeleteEntryLogProposeData c.leader.log c.progress c.leaderSnapshot

/-- The member only loses entries below its snapshot, and the leader only entries up to the smallest
`Match`. -/
def Safe (size : Entry → ℕ) : Prop := (∀ e, c.member.log.Removes size c.command e → e.index < c.memberSnapshot) ∧
    ∀ e, c.leader.log.Removes size c.command e → e.index ≤ minMatch c.progress

theorem lastIndex_lt (s : StoredLog) : s.log.lastIndex < 2 ^ 64 := by
  rw [s.holds.lastIndex s.proper]
  rcases eq_nil_or_concat' s.files.placed with hnil | ⟨init, p, hplaced⟩
  · rw [Files.entries, hnil]
    exact Nat.two_pow_pos 64
  · have hfits := s.holds.mem_fits (hplaced ▸ mem_append_right _ mem_cons_self)
    have hlt := hfits.index_lt
    rw [Files.entries, hplaced, map_append, lastOf_append (by simp)]
    show p.1.index < 2 ^ 64
    omega

theorem proposedIndex_lt : proposedIndex c.leader.log c.progress c.leaderSnapshot < 2 ^ 64 := by
  have hlast := lastIndex_lt c.leader
  have hle := c.leaderSnapshot_le
  have hmin := minMatch_le c.progress
  unfold maxUint64 at hmin
  unfold proposedIndex
  split_ifs <;> omega

theorem leader_removed_le (size : Entry → ℕ) (e : Entry) (he : c.leader.log.Removes size c.command e) :
    e.index ≤ minMatch c.progress := by
  have h := c.leader.holds
  have hp := c.leader.proper
  have hdata := dealCommitData_prepare c.leader.log c.leader.log c.proposedIndex_lt
  refine Nat.le_of_lt_succ ((h.removed_lt_iff hp hdata (minMatch c.progress + 1)).mpr ?_ e he)
  rw [proposedIndex]
  split_ifs with hfile
  · have hle := (h.slotGe hp (minMatch c.progress)).droppedBy_le
    omega
  · -- the file of the snapshot is that of the smallest `Match`
    have hsnap := h.slotGe hp c.leaderSnapshot
    have hmatch := h.slotGe hp (minMatch c.progress)
    rw [not_not] at hfile
    generalize c.leader.log.slotGe c.leaderSnapshot = a at hsnap hfile ⊢
    generalize c.leader.log.slotGe (minMatch c.progress) = b at hmatch hfile
    obtain ⟨fidx, offa⟩ := a
    obtain ⟨fidx', offb⟩ := b
    obtain rfl : fidx' = fidx := hfile
    have hle := hsnap.droppedBy_le_of_same hmatch
    omega

/-- **Cleaning is safe** exactly if the member's file with the proposed index starts at or below the member's
snapshot, or is the first one. -/
theorem safe_iff (size : Entry → ℕ) : c.Safe size ↔ c.member.log.StartsBy
      (if (c.leader.log.slotGe (minMatch c.progress)).1 ≠ (c.leader.log.slotGe c.leaderSnapshot).1 then
        minMatch c.progress
      else c.leaderSnapshot) c.memberSnapshot := by
  have h := c.member.holds
  have hp := c.member.proper
  have hdata := dealCommitData_prepare c.member.log c.leader.log c.proposedIndex_lt
  have hmember : (∀ e, c.member.log.Removes size c.command e → e.index < c.memberSnapshot) ↔ _ :=
    h.removed_lt_iff hp hdata c.memberSnapshot
  rw [← h.startsBy_iff hp] at hmember
  exact ⟨fun hsafe => hmember.mp hsafe.1, fun hstarts => ⟨hmember.mpr hstarts, c.leader_removed_le size⟩⟩

/-! ### A member that loses entries -/

/-- The log after the batch that fills a file. -/
def twoFiles : StoredLog where
  log := (EntryLog.empty.addEntries (LogRun.firstBatch LogRun.zeroFilling)).get (by
    obtain ⟨l, hl, -⟩ := LogRun.holds_firstBatch LogRun.zeroFilling
    rw [hl]
    rfl)
  files := LogRun.firstFiles LogRun.zeroFilling
  holds := by
    obtain ⟨l, hl, h⟩ := LogRun.holds_firstBatch LogRun.zeroFilling
    simpa only [hl, Option.get_some] using h
  proper := LogRun.proper_firstFiles LogRun.zeroFilling

theorem lastIndex_twoFiles : twoFiles.log.lastIndex = 3 := by
  rw [twoFiles.holds.lastIndex twoFiles.proper]
  rfl

theorem slotGe_twoFiles : twoFiles.log.slotGe 3 = (none, some 0) := by
  have hloc := twoFiles.holds.slotGe twoFiles.proper 3
  generalize twoFiles.log.slotGe 3 = loc at hloc
  have hfirst : firstOf twoFiles.files.entries = 1 := rfl
  cases hloc with
  | below fidx _ hbelow =>
    have hlt := hbelow.resolve_left (LogRun.entries_firstFiles_ne LogRun.zeroFilling)
    omega
  | current hne hle => rfl
  | @rotated i ls hi hle hlt =>
    have hi' := (List.getElem?_eq_some_iff.mp hi).1
    have hlen : twoFiles.files.rotated.length = 1 := rfl
    obtain rfl : i = 0 := by omega
    cases hi
    exact absurd hlt (by decide : ¬ 3 < 1 + 0 + 2)

/-- Leader and member have the entries 1 and 2 in one file and 3 in the next. The leader's snapshot is 3, and
all members have 3, but the member's own snapshot is 1. -/
def laggingMember : Cleaning where
  leader := twoFiles
  member := twoFiles
  leaderSnapshot := 3
  memberSnapshot := 1
  progress := [3, 3, 3]
  leaderSnapshot_le := lastIndex_twoFiles.ge
  memberSnapshot_le := by
    rw [lastIndex_twoFiles]
    decide

/-- The member removes its entries 1 and 2. -/
theorem laggingMember_loses_entries : laggingMember.member.log.Removes (fun _ => 0) laggingMember.command
      ⟨1, 2, 0, LogRun.zeroFilling.data⟩ ∧ ¬ 2 < laggingMember.memberSnapshot := by
  have h := twoFiles.holds
  have hp := twoFiles.proper
  have hindex : proposedIndex laggingMember.leader.log laggingMember.progress laggingMember.leaderSnapshot = 3 := by
    exact ite_self 3
  have hdata := dealCommitData_prepare twoFiles.log laggingMember.leader.log laggingMember.proposedIndex_lt
  rw [hindex] at hdata
  have hread := (h.deleteBefore hp 3).readAll (hp.keptFrom _) fun _ => 0
  have hslot := slotGe_twoFiles
  rw [hslot] at hread
  refine ⟨⟨?_, _, hdata, ?_⟩, by decide⟩
  · show _ ∈ twoFiles.log.readAll _
    rw [h.readAll hp]
    exact mem_cons_of_mem _ mem_cons_self
  · rw [hread]
    show _ ∉ [_]
    simp

end Cleaning

end GeminiTS.Raft
