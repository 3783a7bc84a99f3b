import GeminiTS.Lib.StableSort
import GeminiTS.Lib.Lists

/-!
# ReplicaGroups — the replica groups of a database

The partitions of a replicated database are put into replica groups when the database gets its partition view, and
when a later data node brings partitions of its own (`lib/util/lifted/influx/meta/replication.go`, `data.go`). A group
is open (`UnFull`) until it has as many members as the database has replicas.

* `ReplicaRun.spreads_iff` — the groups spread their members exactly if the policy is by zone or a node has at most
  two partitions: of the groups joined before, only the last one is remembered.
-/

namespace GeminiTS.Replication

open Lib List

/-! ### The code -/

inductive RepDisPolicy
  | nodeHard
  | azHard
  deriving DecidableEq

inductive NodeRole
  | default
  | reader
  | writer
  deriving DecidableEq

inductive Role
  | master
  | slave
  | catcher
  deriving DecidableEq

inductive RGStatus
  | health
  | subHealth
  | unFull
  deriving DecidableEq

structure Peer where
  id : ℕ
  ptRole : Role
  deriving DecidableEq

structure ReplicaGroup where
  id : ℕ
  masterPtID : ℕ
  peers : List Peer
  status : RGStatus
  term : ℕ
  deriving DecidableEq

namespace ReplicaGroup

def members (rg : ReplicaGroup) : List ℕ := rg.masterPtID :: rg.peers.map (·.id)

def addPeer (rg : ReplicaGroup) (ptId : ℕ) : ReplicaGroup := { rg with peers := rg.peers ++ [⟨ptId, .slave⟩] }

def nextUnFull (rg : ReplicaGroup) (replicasN : ℕ) : ReplicaGroup :=
  if rg.status ≠ .unFull then rg
  else if replicasN = rg.peers.length + 1 then { rg with status := .subHealth }
  else rg

end ReplicaGroup

open ReplicaGroup (members nextUnFull addPeer)

structure DataNode where
  id : ℕ
  tcpHost : String
  role : NodeRole
  az : String

structure PtInfo where
  ptId : ℕ
  owner : ℕ
  rgid : ℕ
  deriving DecidableEq

/-- The partition view and the groups of the database. It has no view as long as the list is empty. -/
structure Db where
  ptView : List PtInfo
  replicaGroups : List ReplicaGroup

namespace Db

def getPtInfo (db : Db) (ptId : ℕ) : Option PtInfo := db.ptView.find? (·.ptId = ptId)

def getDataNodeByPtId (nodes : List DataNode) (db : Db) (ptId : ℕ) : Option DataNode :=
  (db.getPtInfo ptId).bind fun pt => nodes.find? (·.id = pt.owner)

def inAzSet (nodes : List DataNode) (db : Db) (rg : ReplicaGroup) (currentAz : String) : Bool :=
  decide (some currentAz ∈ rg.members.map fun ptId => (db.getDataNodeByPtId nodes ptId).map (·.az))

def joinForNodeHard (_ : Db) (rg : ReplicaGroup) : Bool := decide (rg.status = .unFull)

def joinForAzHard (nodes : List DataNode) (currentAz : String) (db : Db) (rg : ReplicaGroup) : Bool :=
  decide (rg.status = .unFull) && !db.inAzSet nodes rg currentAz

def getFirstUnFullRGLoc (db : Db) : ℕ := db.replicaGroups.findIdx fun rg => rg.status = .unFull

def getFirstUnFullRGLocWithDiffAz (nodes : List DataNode) (db : Db) (currentAz : String) : ℕ :=
  db.replicaGroups.findIdx fun rg => decide (rg.status = .unFull) && !db.inAzSet nodes rg currentAz

/-- One turn of the loop of `joinRpGroup`: `s.2` is the group joined in the turn before. -/
def joinPt (replicasN rgStart : ℕ) (joinFunc : Db → ReplicaGroup → Bool) (s : Db × Option ℕ) (pt : PtInfo × ℕ) :
    Db × Option ℕ :=
  let db := s.1
  match (db.replicaGroups.zipIdx.drop rgStart).find? fun rg => joinFunc db rg.1 && decide (s.2 ≠ some rg.1.id) with
  | some (rg, i) =>
    (⟨db.ptView.modify pt.2 fun p => { p with rgid := rg.id },
      db.replicaGroups.modify i fun rg => (rg.addPeer pt.1.ptId).nextUnFull replicasN⟩, some rg.id)
  | none =>
    let id := db.replicaGroups.length
    (⟨db.ptView.modify pt.2 fun p => { p with rgid := id },
      db.replicaGroups ++ [(ReplicaGroup.mk id pt.1.ptId [] .unFull 0).nextUnFull replicasN]⟩, some id)

/-- The partitions of a node, with their places in the view. -/
def owned (db : Db) (id : ℕ) : List (PtInfo × ℕ) := db.ptView.zipIdx.filter fun pt => pt.1.owner = id

def joinRpGroup (db : Db) (newNode : DataNode) (replicasN rgStart : ℕ) (joinFunc : Db → ReplicaGroup → Bool) : Db :=
  ((db.owned newNode.id).foldl (joinPt replicasN rgStart joinFunc) (db, none)).1

def nodeHardChooseRG (db : Db) (newNode : DataNode) (replicasN : ℕ) : Db :=
  db.joinRpGroup newNode replicasN db.getFirstUnFullRGLoc joinForNodeHard

def azHardChooseRG (nodes : List DataNode) (db : Db) (newNode : DataNode) (replicasN : ℕ) : Db :=
  db.joinRpGroup newNode replicasN (db.getFirstUnFullRGLocWithDiffAz nodes newNode.az) (joinForAzHard nodes newNode.az)

def chooseRG (policy : RepDisPolicy) (replicaN : ℕ) (nodes : List DataNode) (db : Db) (newNode : DataNode) : Db :=
  match policy with
  | .nodeHard => db.nodeHardChooseRG newNode replicaN
  | .azHard => db.azHardChooseRG nodes newNode replicaN

def updatePtStatus (ptNum : ℕ) (db : Db) (ptId nodeId : ℕ) : Db :=
  let view := if db.ptView.length ≤ ptId then db.ptView ++ replicate (ptNum - db.ptView.length) ⟨0, 0, 0⟩
    else db.ptView
  { db with ptView := view.modify ptId fun pi => { pi with owner := nodeId, ptId := ptId } }

end Db

open Db

structure Data where
  dataNodes : List DataNode
  ptNumPerNode : ℕ
  clusterPtNum : ℕ
  db : Db

namespace Data

def isNodeWriter (role : NodeRole) : Bool := decide (role = .writer) || decide (role = .default)

def getWriteNode (d : Data) : List DataNode := d.dataNodes.filter fun node => isNodeWriter node.role

/-- The new partitions go to the write nodes in turn. The result is `none` if there is no write node. -/
def assignPtForWAF (d : Data) : Option Db :=
  let writeNodes := d.getWriteNode
  if writeNodes = [] then none
  else some ((range d.clusterPtNum).foldl (fun db ptId => db.updatePtStatus d.clusterPtNum ptId
    (((writeNodes.map (·.id))[ptId % writeNodes.length]?).getD 0)) d.db)

def createDBReplication (policy : RepDisPolicy) (replicaN : ℕ) (nodes : List DataNode) (db : Db) : Db :=
  if 1 < replicaN then nodes.foldl (Db.chooseRG policy replicaN nodes) db else db

/-- `ApplyCreateDbPtViewCommand`: the view is made once, and not changed if there is an error. -/
def createDbPtView (policy : RepDisPolicy) (replicaN : ℕ) (d : Data) : Data :=
  if d.db.ptView ≠ [] then d
  else match d.assignPtForWAF with
    | none => d
    | some db => { d with db := createDBReplication policy replicaN d.dataNodes db }

def initDataNodePtView (d : Data) : Data :=
  let newPtNum := d.ptNumPerNode * d.getWriteNode.length
  if d.clusterPtNum < newPtNum then { d with clusterPtNum := newPtNum } else d

def expandDBPtView (policy : RepDisPolicy) (replicaN : ℕ) (d : Data) (newNode : DataNode) : Data :=
  let oldDBPtNums := d.db.ptView.length
  if d.clusterPtNum = oldDBPtNums then d
  else
    let db := (range' oldDBPtNums (d.clusterPtNum - oldDBPtNums)).foldl
      (fun db ptId => db.updatePtStatus d.clusterPtNum ptId newNode.id) d.db
    { d with db := if 1 < replicaN then db.chooseRG policy replicaN d.dataNodes newNode else db }

/-- The new node comes with its id. -/
def createDataNode (policy : RepDisPolicy) (replicaN : ℕ) (d : Data) (dn : DataNode) : Data :=
  if d.dataNodes.any (·.tcpHost = dn.tcpHost) then d
  else
    let d := { d with dataNodes := stableSort (·.id) (d.dataNodes ++ [dn]) }.initDataNodePtView
    if dn.role = .reader ∨ d.db.ptView = [] then d else d.expandDBPtView policy replicaN dn

end Data

/-! ### What is to hold -/

/-- Where a partition must be alone in its group: on its node or in its zone. -/
def Db.place (nodes : List DataNode) (db : Db) (policy : RepDisPolicy) (ptId : ℕ) : Option (ℕ ⊕ String) :=
  match policy with
  | .nodeHard => (db.getPtInfo ptId).map fun pt => .inl pt.owner
  | .azHard => (db.getDataNodeByPtId nodes ptId).map fun node => .inr node.az

structure Spreads (policy : RepDisPolicy) (replicasN : ℕ) (nodes : List DataNode) (db : Db) : Prop where
  belongs : ∀ pt ∈ db.ptView, ∃ rg ∈ db.replicaGroups, rg.id = pt.rgid ∧ pt.ptId ∈ rg.members ∧
    ∀ rg' ∈ db.replicaGroups, pt.ptId ∈ rg'.members → rg' = rg
  bounded : ∀ rg ∈ db.replicaGroups, rg.members.length ≤ replicasN
  full : ∀ rg ∈ db.replicaGroups, rg.status ≠ .unFull ↔ rg.members.length = replicasN
  located : ∀ rg ∈ db.replicaGroups, ∀ ptId ∈ rg.members, db.getDataNodeByPtId nodes ptId ≠ none
  apart : ∀ rg ∈ db.replicaGroups, (rg.members.map (db.place nodes policy)).Nodup

/-! ### One partition enters a group -/

/-- The members of the group at a position. -/
def Db.membersAt (db : Db) (j : ℕ) : List ℕ := (db.replicaGroups[j]?).elim [] (·.members)

def Db.owners (db : Db) : List ℕ := db.ptView.map PtInfo.owner

/-- A group has its position as its id, and is open as long as it has too few members. -/
structure Fits (n j : ℕ) (rg : ReplicaGroup) : Prop where
  id_eq : rg.id = j
  bounded : rg.members.length ≤ n
  full : rg.status ≠ .unFull ↔ rg.members.length = n

theorem fits_nextUnFull {n j : ℕ} (rg : ReplicaGroup) (hid : rg.id = j) (hopen : rg.status = .unFull)
    (hle : rg.members.length ≤ n) : Fits n j (rg.nextUnFull n) ∧ (rg.nextUnFull n).members = rg.members := by
  have hlen : rg.members.length = rg.peers.length + 1 := by simp [members]
  unfold nextUnFull
  rw [if_neg (not_not.mpr hopen)]
  split_ifs with h
  · exact ⟨⟨hid, hle, fun _ => hlen.trans h.symm, fun _ => RGStatus.noConfusion⟩, rfl⟩
  · exact ⟨⟨hid, hle, fun h' => absurd hopen h', fun h' => absurd (h'.symm.trans hlen) h⟩, rfl⟩

/-- The partition at `ptId` of the view is the new last member of the group at `j`. -/
structure Entered (n : ℕ) (db db' : Db) (ptId j : ℕ) : Prop where
  view : db'.ptView = db.ptView.modify ptId fun p => { p with rgid := j }
  group : ∃ rg, db'.replicaGroups[j]? = some rg ∧ Fits n j rg ∧ rg.members = db.membersAt j ++ [ptId]
  others : ∀ i, i ≠ j → db'.replicaGroups[i]? = db.replicaGroups[i]?

/-- The groups and the view when the partitions in `placed` are in their groups. -/
structure Placed (n : ℕ) (db : Db) (placed : ℕ → Prop) : Prop where
  group : ∀ j rg, db.replicaGroups[j]? = some rg → Fits n j rg
  pt : ∀ i (p : PtInfo), db.ptView[i]? = some p → p.ptId = i
  member : ∀ i j, i ∈ db.membersAt j ↔ placed i ∧ ∃ p, db.ptView[i]? = some p ∧ p.rgid = j

section Enter

variable {n : ℕ} {db db' : Db} {seen : ℕ → Prop} {ptId j : ℕ}

theorem Placed.getPtInfo_eq (hp : Placed n db seen) (i : ℕ) : db.getPtInfo i = db.ptView[i]? := by
  have hpt := hp.pt
  unfold getPtInfo
  cases hq : db.ptView.find? (·.ptId = i) with
  | none =>
    grind
  | some q =>
    obtain ⟨k, hk⟩ := mem_iff_getElem?.mp (mem_of_find?_eq_some hq)
    have hid : q.ptId = i := by simpa using find?_some hq
    rw [← hid, hpt k q hk, hk]

theorem Entered.membersAt (h : Entered n db db' ptId j) (i : ℕ) :
    db'.membersAt i = if i = j then db.membersAt j ++ [ptId] else db.membersAt i := by
  obtain ⟨rg, hrg, -, hm⟩ := h.group
  have hother := h.others i
  unfold Db.membersAt at *
  grind

theorem Entered.placed (h : Entered n db db' ptId j) (hp : Placed n db seen) (hnew : ¬ seen ptId)
    (hlt : ptId < db.ptView.length) : Placed n db' fun i => seen i ∨ i = ptId where
  group i rg hrg := by
    obtain ⟨rg', hrg', hfits, -⟩ := h.group
    have hother := h.others i
    have hold := hp.group i rg
    grind
  pt i p hi := by
    have hpt := hp.pt i
    rw [h.view] at hi
    grind
  member i k := by
    have hold := hp.member i k
    have hj := hp.member i j
    rw [h.membersAt, h.view, getElem?_modify]
    by_cases hi : i = ptId
    · subst hi
      rw [getElem?_eq_getElem hlt]
      by_cases hk : k = j <;> simp [hk, hold, hnew, eq_comm]
    · grind

/-- A turn of the loop: the group is new, or open to the node and not the one joined before. -/
theorem Placed.joinPt (hp : Placed n db seen) (hn : 2 ≤ n) {join : Db → ReplicaGroup → Bool}
    (hjoin : ∀ db rg, join db rg = true → rg.status = .unFull) (start : ℕ) (pre : Option ℕ) {pt : PtInfo}
    (hpt : pt.ptId = ptId) :
    ∃ j, Entered n db (joinPt n start join (db, pre) (pt, ptId)).1 ptId j ∧
      (joinPt n start join (db, pre) (pt, ptId)).2 = some j ∧
      ∀ rg, db.replicaGroups[j]? = some rg → join db rg = true ∧ pre ≠ some j := by
  unfold Db.joinPt
  dsimp only
  cases hfind : (db.replicaGroups.zipIdx.drop start).find? fun rg => join db rg.1 && decide (pre ≠ some rg.1.id) with
  | none =>
    obtain ⟨hfits, hm⟩ := fits_nextUnFull ⟨db.replicaGroups.length, pt.ptId, [], .unFull, 0⟩ rfl rfl
      (Nat.le_of_succ_le hn)
    refine ⟨db.replicaGroups.length, ⟨rfl, ⟨_, getElem?_concat_length, hfits, ?_⟩, by grind⟩, rfl, by grind⟩
    rw [hm, membersAt, getElem?_eq_none le_rfl, ← hpt]
    rfl
  | some r =>
    obtain ⟨rg, i⟩ := r
    have hcand := find?_some hfind
    simp only [Bool.and_eq_true] at hcand
    have hi : db.replicaGroups[i]? = some rg :=
      mem_zipIdx_iff_getElem?.mp (mem_of_mem_drop (mem_of_find?_eq_some hfind))
    obtain ⟨rfl, hle, hfull⟩ := hp.group i rg hi
    have hopen := hjoin db rg hcand.1
    have hmem : (rg.addPeer pt.ptId).members = rg.members ++ [ptId] := by
      simp [members, addPeer, hpt]
    have hlt : rg.members.length ≠ n := fun h => hfull.mpr h hopen
    obtain ⟨hfits, hm⟩ := fits_nextUnFull (n := n) (rg.addPeer pt.ptId) rfl hopen (by simp [hmem]; omega)
    refine ⟨rg.id, ⟨rfl, ⟨_, ?_, hfits, ?_⟩, by grind⟩, rfl, by grind⟩
    · rw [getElem?_modify, hi]
      simp
    · rw [hm, hmem, membersAt, hi]
      rfl

end Enter

/-! ### The partitions of a node -/

/-- The place of the partitions of a node. -/
def spot (nodes : List DataNode) : RepDisPolicy → ℕ → Option (ℕ ⊕ String)
  | .nodeHard, id => some (.inl id)
  | .azHard, id => (nodes.find? (·.id = id)).map fun node => .inr node.az

def Db.spotAt (nodes : List DataNode) (policy : RepDisPolicy) (db : Db) (i : ℕ) : Option (ℕ ⊕ String) :=
  (db.owners[i]?).bind (spot nodes policy)

/-- The members of every group are in different places. -/
def Apart (nodes : List DataNode) (policy : RepDisPolicy) (db : Db) : Prop :=
  ∀ j, ((db.membersAt j).map (db.spotAt nodes policy)).Nodup

/-- Partitions have entered groups. -/
structure Grew (db db' : Db) : Prop where
  owners : db'.owners = db.owners
  members : ∀ j, db.membersAt j <+: db'.membersAt j

section Node

variable {n : ℕ} {db db' : Db} {seen : ℕ → Prop} {nodes : List DataNode} {policy : RepDisPolicy}

theorem Placed.place_eq (hp : Placed n db seen) (i : ℕ) : db.place nodes policy i = db.spotAt nodes policy i := by
  unfold spotAt owners
  rw [getElem?_map, ← hp.getPtInfo_eq]
  cases policy with
  | nodeHard => show (db.getPtInfo i).map _ = _; cases db.getPtInfo i <;> rfl
  | azHard => show ((db.getPtInfo i).bind _).map _ = _; cases db.getPtInfo i <;> rfl

theorem Grew.spotAt_eq (h : Grew db db') : db'.spotAt nodes policy = db.spotAt nodes policy :=
  funext fun i => by rw [spotAt, h.owners, spotAt]

theorem Grew.apart (h : Grew db db') (ha : Apart nodes policy db') : Apart nodes policy db := fun j =>
  ((h.members j).sublist.map _).nodup (h.spotAt_eq ▸ ha j)

theorem Grew.length_eq (h : Grew db db') : db'.ptView.length = db.ptView.length := by
  simpa [Db.owners] using congrArg length h.owners

theorem Entered.grew {ptId j : ℕ} (h : Entered n db db' ptId j) : Grew db db' where
  owners := by
    refine ext_getElem? fun i => ?_
    rw [owners, owners, h.view]
    grind
  members i := by
    rw [h.membersAt]
    split_ifs with hij
    · exact hij ▸ prefix_append _ _
    · exact prefix_rfl

theorem Entered.apart {ptId j : ℕ} (h : Entered n db db' ptId j)
    (hfree : ∀ i ∈ db.membersAt j, db.spotAt nodes policy i ≠ db.spotAt nodes policy ptId)
    (ha : Apart nodes policy db) : Apart nodes policy db' := by
  intro i
  rw [h.membersAt, h.grew.spotAt_eq]
  split_ifs with hij
  · rw [map_append]
    have := ha j
    grind
  · exact ha i

/-- The partitions at the places in a list are those of one node, and they are not placed yet. -/
def Waiting (db : Db) (seen : ℕ → Prop) (id : ℕ) (pts : List (PtInfo × ℕ)) : Prop :=
  (pts.map (·.2)).Nodup ∧ ∀ x ∈ pts, x.1.ptId = x.2 ∧ db.owners[x.2]? = some id ∧ ¬ seen x.2

variable {pts : List (PtInfo × ℕ)} {id : ℕ}

theorem Placed.turn (s : Db × Option ℕ) (hp : Placed n s.1 seen) (hn : 2 ≤ n) {join : Db → ReplicaGroup → Bool}
    (hjoin : ∀ db rg, join db rg = true → rg.status = .unFull) (start : ℕ) {x : PtInfo × ℕ}
    (hw : Waiting s.1 seen id (x :: pts)) :
    ∃ j, Entered n s.1 (Db.joinPt n start join s x).1 x.2 j ∧ (Db.joinPt n start join s x).2 = some j ∧
      (∀ rg, s.1.replicaGroups[j]? = some rg → join s.1 rg = true ∧ s.2 ≠ some j) ∧
      Placed n (Db.joinPt n start join s x).1 (fun i => seen i ∨ i = x.2) ∧
      Waiting (Db.joinPt n start join s x).1 (fun i => seen i ∨ i = x.2) id pts := by
  obtain ⟨hnodup, hall⟩ := hw
  obtain ⟨hid, howner, hnew⟩ := hall x mem_cons_self
  obtain ⟨j, hent, hpre, hfree⟩ := hp.joinPt hn hjoin start s.2 hid
  have hlt : x.2 < s.1.ptView.length := by
    simpa [owners] using (List.getElem?_eq_some_iff.mp howner).1
  refine ⟨j, hent, hpre, hfree, hent.placed hp hnew hlt, (nodup_cons.mp hnodup).2, fun y hy => ?_⟩
  have howners : (Db.joinPt n start join s x).1.owners = s.1.owners := hent.grew.owners
  grind

theorem Placed.loop (hn : 2 ≤ n) {join : Db → ReplicaGroup → Bool}
    (hjoin : ∀ db rg, join db rg = true → rg.status = .unFull) {start : ℕ} {Q : Db → Prop}
    (hQ : ∀ {db db' : Db} {seen : ℕ → Prop} {i j : ℕ}, Placed n db seen → Entered n db db' i j →
      db.owners[i]? = some id → (∀ rg, db.replicaGroups[j]? = some rg → join db rg = true) → Q db → Q db')
    {s : Db × Option ℕ} {seen : ℕ → Prop} (hp : Placed n s.1 seen)
    (hw : Waiting s.1 seen id pts) (hq : Q s.1) {db' : Db} (hdb' : (pts.foldl (Db.joinPt n start join) s).1 = db') :
    Placed n db' (fun i => seen i ∨ i ∈ pts.map (·.2)) ∧ Grew s.1 db' ∧ Q db' := by
  induction pts generalizing s seen with
  | nil =>
    subst hdb'
    simpa using ⟨hp, ⟨rfl, fun _ => prefix_rfl⟩, hq⟩
  | cons x pts ih =>
    obtain ⟨j, hent, -, hfree, hp1, hw1⟩ := hp.turn s hn hjoin start hw
    obtain ⟨hp', hgrew, hq'⟩ := ih hp1 hw1 (hQ hp hent (hw.2 x mem_cons_self).2.1 (fun rg h => (hfree rg h).1) hq) hdb'
    refine ⟨by simpa [or_assoc] using hp', ⟨hgrew.owners.trans hent.grew.owners, fun k => ?_⟩, hq'⟩
    exact (hent.grew.members k).trans (hgrew.members k)

theorem unFull_of_joinForNodeHard (db : Db) (rg : ReplicaGroup) (h : db.joinForNodeHard rg = true) :
    rg.status = .unFull := of_decide_eq_true h

variable (hp : Placed n db seen)

include hp

/-- Under the node policy, at most two partitions: the second does not follow the first. -/
theorem Placed.apart_two (hn : 2 ≤ n) {start : ℕ} (hw : Waiting db seen id pts) (hlen : pts.length ≤ 2)
    (hfree : ∀ j, ∀ i ∈ db.membersAt j, db.owners[i]? ≠ some id) (ha : Apart nodes .nodeHard db) :
    Apart nodes .nodeHard (pts.foldl (Db.joinPt n start Db.joinForNodeHard) (db, none)).1 := by
  have hspot : ∀ {i k : ℕ}, db.owners[i]? ≠ some id → db.owners[k]? = some id →
      db.spotAt nodes .nodeHard i ≠ db.spotAt nodes .nodeHard k := fun {i k} hi hk => by
    rw [spotAt, spotAt]
    cases ho : db.owners[i]? <;> simp_all [spot]
  match pts, hw, hlen with
  | [], _, _ => exact ha
  | x :: pts, hw, hlen =>
    have hx := (hw.2 x mem_cons_self).2.1
    obtain ⟨j, hent, hpre, -, hp1, hw1⟩ := hp.turn (db, none) hn unFull_of_joinForNodeHard start hw
    have ha1 := hent.apart (fun i hi => hspot (hfree j i hi) hx) ha
    match pts, hw, hw1, hlen with
    | [], _, _, _ => exact ha1
    | [y], hw, hw1, _ =>
      have hy := (hw.2 y (mem_cons_of_mem x mem_cons_self)).2.1
      obtain ⟨k, hent', -, hopen, -, -⟩ := hp1.turn (_, some j) hn unFull_of_joinForNodeHard start hw1
      show Apart nodes .nodeHard (Db.joinPt n start _ (Db.joinPt n start Db.joinForNodeHard (db, none) x) y).1
      rw [show Db.joinPt n start Db.joinForNodeHard (db, none) x = (_, some j) from Prod.ext rfl hpre]
      refine hent'.apart (fun i hi => ?_) ha1
      -- the group of the second partition is another one, so that it has the members it had before
      have hkj : k ≠ j := by
        rintro rfl
        obtain ⟨rg, hrg, -⟩ := hent.group
        exact (hopen rg hrg).2 rfl
      rw [hent.membersAt, if_neg hkj] at hi
      rw [hent.grew.spotAt_eq]
      exact hspot (hfree k i hi) hy
    | y :: z :: pts, _, _, hlen => simp at hlen

/-- Under the node policy, the third partition of the first node is in the group of the first one. -/
theorem Placed.not_apart (hn : 2 ≤ n) (hgroups : db.replicaGroups = [])
    (hw : Waiting db seen id pts) (hlen : 3 ≤ pts.length) :
    ¬ Apart nodes .nodeHard (pts.foldl (Db.joinPt n db.getFirstUnFullRGLoc Db.joinForNodeHard) (db, none)).1 := by
  match pts, hw, hlen with
  | a :: b :: c :: rest, hw, _ =>
    have hfirst : ([a, b, c].foldl (Db.joinPt n db.getFirstUnFullRGLoc Db.joinForNodeHard) (db, none)).1.membersAt 0 =
        [a.1.ptId, c.1.ptId] := by
      have hne : n ≠ 1 := by omega
      by_cases h2 : n = 2 <;> simp [Db.getFirstUnFullRGLoc, Db.joinPt, hgroups, Db.joinForNodeHard,
        nextUnFull, hne, h2, Db.membersAt, members, addPeer]
    obtain ⟨ja, hea, -, -, hp1, hw1⟩ := hp.turn (db, none) hn unFull_of_joinForNodeHard db.getFirstUnFullRGLoc hw
    obtain ⟨jb, heb, -, -, hp2, hw2⟩ := hp1.turn _ hn unFull_of_joinForNodeHard db.getFirstUnFullRGLoc hw1
    obtain ⟨jc, hec, -, -, hp3, hw3⟩ := hp2.turn _ hn unFull_of_joinForNodeHard db.getFirstUnFullRGLoc hw2
    obtain ⟨-, hgrew, -⟩ := Placed.loop hn unFull_of_joinForNodeHard (fun _ _ _ _ _ => trivial) hp3 hw3 trivial rfl
    have howners := hec.grew.owners.trans (heb.grew.owners.trans hea.grew.owners)
    obtain ⟨hida, hoa, -⟩ := hw.2 a (by simp)
    obtain ⟨hidc, hoc, -⟩ := hw.2 c (by simp)
    intro ha
    have h3 := hgrew.apart ha 0
    rw [foldl_cons, foldl_cons, foldl_cons, foldl_nil] at hfirst
    rw [hfirst, hida, hidc] at h3
    simp [spotAt, howners, hoa, hoc] at h3

theorem Placed.waiting (hnew : ∀ i : ℕ, db.owners[i]? = some id → ¬ seen i) :
    Waiting db seen id (db.owned id) ∧ ∀ i, i ∈ (db.owned id).map (·.2) ↔ db.owners[i]? = some id := by
  have hmem : ∀ x, x ∈ db.owned id ↔ db.ptView[x.2]? = some x.1 ∧ x.1.owner = id := fun x => by
    rw [owned, mem_filter, mem_zipIdx_iff_getElem?, decide_eq_true_eq]
  have hiff : ∀ i, i ∈ (db.owned id).map (·.2) ↔ db.owners[i]? = some id := fun i => by
    simp [hmem, owners]
  have hsub : ((db.owned id).map (·.2)).Sublist (db.ptView.zipIdx.map (·.2)) := filter_sublist.map _
  refine ⟨⟨hsub.nodup (zipIdx_map_snd 0 db.ptView ▸ nodup_range'), fun x hx => ?_⟩, hiff⟩
  have howner := (hiff x.2).mp (mem_map_of_mem hx)
  exact ⟨hp.pt _ _ ((hmem x).mp hx).1, howner, hnew _ howner⟩

/-- **What the partitions of a node change**, if none of them is placed yet. -/
theorem Placed.chooseRG (hn : 2 ≤ n) {node : DataNode}
    (hnode : nodes.find? (·.id = node.id) = some node) (hnew : ∀ i : ℕ, db.owners[i]? = some node.id → ¬ seen i)
    {db' : Db}
    (hdb' : db.chooseRG policy n nodes node = db') :
    Placed n db' (fun i => seen i ∨ db.owners[i]? = some node.id) ∧ Grew db db' ∧
      (policy = .azHard ∨ (db.owned node.id).length ≤ 2 → Apart nodes policy db → Apart nodes policy db') ∧
      (policy = .nodeHard → db.replicaGroups = [] → 3 ≤ (db.owned node.id).length → ¬ Apart nodes policy db') := by
  obtain ⟨hw, hiff⟩ := hp.waiting hnew
  simp only [← hiff]
  cases policy with
  | nodeHard =>
    obtain ⟨hall, hgrew, -⟩ := Placed.loop hn unFull_of_joinForNodeHard (fun _ _ _ _ _ => trivial) hp hw trivial hdb'
    refine ⟨hall, hgrew, fun hlen ha => ?_, fun _ hgroups hlen => hdb' ▸ hp.not_apart hn hgroups hw hlen⟩
    -- a member is placed, and so it is not on this node
    refine hdb' ▸ hp.apart_two hn hw (hlen.resolve_left RepDisPolicy.noConfusion) (fun j i hi ho => ?_) ha
    exact hnew i ho ((hp.member i j).mp hi).1
  | azHard =>
    have hjoin : ∀ db rg, joinForAzHard nodes node.az db rg = true →
        rg.status = .unFull ∧ some node.az ∉ rg.members.map fun i => (db.getDataNodeByPtId nodes i).map (·.az) :=
      fun db rg h => by simpa [joinForAzHard, inAzSet] using h
    -- the zone of the node is none of the zones of a group that is open to it
    have hother : ∀ {e : Db} {seen : ℕ → Prop} {i j : ℕ}, Placed n e seen → e.owners[i]? = some node.id →
        (∀ rg, e.replicaGroups[j]? = some rg → joinForAzHard nodes node.az e rg = true) →
        ∀ k ∈ e.membersAt j, e.spotAt nodes .azHard k ≠ e.spotAt nodes .azHard i :=
      fun {e _ i j} hp howner hopen k hk heq => by
      unfold membersAt at hk
      cases hrg : e.replicaGroups[j]? with
      | none => simp [hrg] at hk
      | some rg =>
        rw [← hp.place_eq, spotAt, howner, Option.bind_some, spot, hnode] at heq
        refine (hjoin e rg (hopen rg hrg)).2 (mem_map.mpr ⟨k, by simpa [hrg] using hk, ?_⟩)
        obtain ⟨m, hm, hmaz⟩ := Option.map_eq_some_iff.mp heq
        rw [hm]
        exact congrArg some (Sum.inr.inj hmaz)
    obtain ⟨hall, hgrew, hapart⟩ := Placed.loop (Q := fun e => Apart nodes .azHard db → Apart nodes .azHard e) hn
      (fun e rg h => (hjoin e rg h).1)
      (fun hp hent howner hopen hq ha => hent.apart (hother hp howner hopen) (hq ha)) hp hw id hdb'
    exact ⟨hall, hgrew, fun _ => hapart, RepDisPolicy.noConfusion⟩

end Node

/-! ### New partitions and new nodes -/

section Grow

variable {n : ℕ} {db db' : Db} {seen : ℕ → Prop} {nodes : List DataNode} {policy : RepDisPolicy}

/-- The view with `k` new partitions that have the owners `f`. -/
def Db.grown (db : Db) (f : ℕ → ℕ) (k : ℕ) : Db :=
  { db with ptView := db.ptView ++ (range' db.ptView.length k).map fun i => ⟨i, f i, 0⟩ }

/-- Their owners. -/
def Db.newOwners (db : Db) (f : ℕ → ℕ) (k : ℕ) : List ℕ := (List.range' db.ptView.length k).map f

/-- New partitions are put behind the view: the first update makes room for them, and they are filled in turn. -/
theorem foldl_updatePtStatus (f : ℕ → ℕ) {k c room : ℕ} (db : Db) (h : room = k ∨ room = 0 ∧ c = db.ptView.length + k) :
    (range' db.ptView.length k).foldl (fun db i => db.updatePtStatus c i (f i))
      { db with ptView := db.ptView ++ replicate room ⟨0, 0, 0⟩ } = db.grown f k := by
  induction k generalizing db room with
  | zero =>
    have hroom : room = 0 := h.elim id And.left
    simp [hroom, grown]
  | succ k ih =>
    have hstep : updatePtStatus c { db with ptView := db.ptView ++ replicate room ⟨0, 0, 0⟩ } db.ptView.length
        (f db.ptView.length) = { db with ptView :=
          (db.ptView ++ [⟨db.ptView.length, f db.ptView.length, 0⟩]) ++ replicate k ⟨0, 0, 0⟩ } := by
      have hview : (if db.ptView.length + room ≤ db.ptView.length then db.ptView ++ replicate room ⟨0, 0, 0⟩ ++
          replicate (c - (db.ptView.length + room)) ⟨0, 0, 0⟩ else db.ptView ++ replicate room ⟨0, 0, 0⟩) =
          db.ptView ++ ⟨0, 0, 0⟩ :: replicate k ⟨0, 0, 0⟩ := by
        rcases h with rfl | ⟨rfl, rfl⟩ <;> simp [replicate_succ]
      unfold updatePtStatus
      simp only [length_append, length_replicate, hview, modify_length_append]
      simp
    rw [range'_succ, foldl_cons, hstep]
    have hrest := ih { db with ptView := db.ptView ++ [⟨db.ptView.length, f db.ptView.length, 0⟩] } (.inl rfl)
    rw [length_append, length_singleton] at hrest
    rw [hrest]
    simp [grown, range'_succ]

theorem owners_grown (f : ℕ → ℕ) (k : ℕ) : (db.grown f k).owners = db.owners ++ db.newOwners f k := by
  simp [grown, owners, newOwners]

/-- With new partitions behind the view, those that were there are the ones placed. -/
theorem Placed.grown (hp : Placed n db fun _ => True) (f : ℕ → ℕ) (k : ℕ) :
    Placed n (db.grown f k) fun i => i < db.ptView.length where
  group := hp.group
  pt i p hi := by
    have hpt := hp.pt i p
    simp only [Db.grown] at hi
    grind
  member i j := by
    refine (hp.member i j).trans ?_
    simp only [Db.grown]
    grind

theorem Placed.all (hp : Placed n db seen) (h : ∀ i < db.ptView.length, seen i) : Placed n db fun _ => True where
  group := hp.group
  pt := hp.pt
  member i j := by
    have hmem := hp.member i j
    grind

theorem length_owned (db : Db) (id : ℕ) : (db.owned id).length = db.owners.countP (· = id) := by
  rw [owned, owners, ← countP_eq_length_filter, countP_map]
  conv_rhs => rw [← zipIdx_map_fst 0 db.ptView, countP_map]
  rfl

theorem find?_id_eq (hnodup : (nodes.map (·.id)).Nodup) {node : DataNode} (h : node ∈ nodes) :
    nodes.find? (·.id = node.id) = some node := by
  obtain ⟨q, hq⟩ := Option.isSome_iff_exists.mp
    (find?_isSome (p := fun q => decide (q.id = node.id)).mpr ⟨node, h, by simp⟩)
  have hid : q.id = node.id := by simpa using find?_some hq
  exact hq.trans (congrArg some (inj_on_of_nodup_map hnodup (mem_of_find?_eq_some hq) h hid))

/-- **Nodes in turn**, if none of their partitions is placed yet. -/
theorem Placed.chooseAll (hn : 2 ≤ n) {l : List DataNode} (hnodup : (l.map (·.id)).Nodup) {db : Db} {seen : ℕ → Prop}
    (hp : Placed n db seen) (hl : ∀ node ∈ l, nodes.find? (·.id = node.id) = some node)
    (hnew : ∀ node ∈ l, ∀ i : ℕ, db.owners[i]? = some node.id → ¬ seen i) {db' : Db}
    (hdb' : l.foldl (Db.chooseRG policy n nodes) db = db') :
    Placed n db' (fun i => seen i ∨ ∃ node ∈ l, db.owners[i]? = some node.id) ∧ Grew db db' ∧
      ((policy = .azHard ∨ ∀ node ∈ l, db.owners.countP (· = node.id) ≤ 2) → Apart nodes policy db →
        Apart nodes policy db') ∧
      (policy = .nodeHard → db.replicaGroups = [] →
        (∀ node ∈ l, db.owners.countP (· = node.id) = 0 ∨ 3 ≤ db.owners.countP (· = node.id)) →
        (∃ node ∈ l, db.owners.countP (· = node.id) ≠ 0) → ¬ Apart nodes policy db') := by
  induction l generalizing db seen with
  | nil =>
    subst hdb'
    simpa using ⟨hp, rfl, fun _ => prefix_rfl⟩
  | cons node l ih =>
    obtain ⟨hne, hnodup⟩ := nodup_cons.mp hnodup
    obtain ⟨hp1, hgrew, hapart, hnot⟩ := hp.chooseRG hn (hl node mem_cons_self) (hnew node mem_cons_self) rfl
    obtain ⟨hp2, hgrew2, hapart2, hnot2⟩ := ih hnodup hp1 (fun other ho => hl other (mem_cons_of_mem node ho))
      (fun other ho i hi => by
        rw [hgrew.owners] at hi
        grind) hdb'
    rw [hgrew.owners] at hp2 hapart2 hnot2
    rw [length_owned] at hapart hnot
    refine ⟨by simpa [or_assoc] using hp2, ⟨hgrew2.owners.trans hgrew.owners, fun k => ?_⟩, fun hfew ha => ?_,
      fun hpol hgroups hmany hex => ?_⟩
    · exact (hgrew.members k).trans (hgrew2.members k)
    · exact hapart2 (hfew.imp_right fun h other ho => h other (mem_cons_of_mem node ho))
        (hapart (hfew.imp_right fun h => h node mem_cons_self) ha)
    · rcases hmany node mem_cons_self with hzero | hthree
      · -- a node without partitions changes nothing
        have hnil : db.owned node.id = [] := length_eq_zero_iff.mp ((length_owned db node.id).trans hzero)
        have hsame : db.chooseRG policy n nodes node = db := by
          cases policy <;> (show joinRpGroup _ _ _ _ _ = db; rw [joinRpGroup, hnil]; rfl)
        rw [hsame] at hnot2
        refine hnot2 hpol hgroups (fun m hm => hmany m (mem_cons_of_mem node hm)) ?_
        obtain ⟨other, hmem, hother⟩ := hex
        rcases mem_cons.mp hmem with rfl | hmem
        · exact absurd hzero hother
        · exact ⟨other, hmem, hother⟩
      · exact fun ha => hnot hpol hgroups hthree (hgrew2.apart ha)

end Grow

/-! ### Runs -/

/-- What holds between the commands. -/
structure Good (policy : RepDisPolicy) (n : ℕ) (d : Data) : Prop where
  nodup : (d.dataNodes.map (·.id)).Nodup
  cluster : d.clusterPtNum = d.ptNumPerNode * d.getWriteNode.length
  size : d.db.ptView = [] ∨ d.db.ptView.length = d.clusterPtNum
  owner : ∀ id ∈ d.db.owners, ∃ node ∈ d.dataNodes, node.id = id
  placed : Placed n d.db fun _ => True
  apart : policy = .azHard ∨ d.ptNumPerNode ≤ 2 → Apart d.dataNodes policy d.db

section Commands

variable {n : ℕ} {d e : Data} {policy : RepDisPolicy}

/-- More nodes, and new partitions for the nodes in `l`, which then choose their groups. -/
theorem Good.extend (hg : Good policy n d) (hn : 2 ≤ n) {k : ℕ} {f : ℕ → ℕ} {l : List DataNode} {db' : Db}
    (hdb : l.foldl (chooseRG policy n e.dataNodes) (d.db.grown f k) = db')
    (hnum : e.ptNumPerNode = d.ptNumPerNode) (hsub : d.dataNodes ⊆ e.dataNodes)
    (hnodup : (e.dataNodes.map (·.id)).Nodup) (hcluster : e.clusterPtNum = d.ptNumPerNode * e.getWriteNode.length)
    (hsize : d.db.ptView.length + k = 0 ∨ d.db.ptView.length + k = e.clusterPtNum) (hl : l.Sublist e.dataNodes)
    (hold : ∀ node ∈ l, node.id ∉ d.db.owners)
    (hnew : ∀ i ∈ range' d.db.ptView.length k, ∃ node ∈ l, node.id = f i)
    (hfew : ∀ node ∈ l, (d.db.newOwners f k).countP (· = node.id) ≤ d.ptNumPerNode) :
    Good policy n { e with db := db' } ∧ (Apart e.dataNodes policy db' → Apart d.dataNodes policy d.db) ∧
      (policy = .nodeHard → d.db.replicaGroups = [] →
        (∀ node ∈ l, (d.db.newOwners f k).countP (· = node.id) = 0 ∨ 3 ≤ (d.db.newOwners f k).countP (· = node.id)) →
        (∃ node ∈ l, (d.db.newOwners f k).countP (· = node.id) ≠ 0) → ¬ Apart e.dataNodes policy db') := by
  have howners : (d.db.grown f k).owners = _ := owners_grown f k
  have hlen : d.db.owners.length = d.db.ptView.length := length_map _
  -- the members of the groups and their places are those of `d`
  have hapart : Apart e.dataNodes policy (d.db.grown f k) ↔ Apart d.dataNodes policy d.db := by
    refine forall_congr' fun j => ?_
    show ((d.db.membersAt j).map _).Nodup ↔ _
    rw [map_congr_left fun i hi => ?_]
    obtain ⟨-, p, hp, -⟩ := (hg.placed.member i j).mp hi
    have hlt := (List.getElem?_eq_some_iff.mp hp).1
    rw [spotAt, howners, getElem?_append_left (hlen.symm ▸ hlt)]
    refine Option.bind_congr fun id hid => ?_
    obtain ⟨node, hmem, rfl⟩ := hg.owner id (mem_of_getElem? hid)
    cases policy with
    | nodeHard => rfl
    | azHard => rw [spot, spot, find?_id_eq hg.nodup hmem, find?_id_eq hnodup (hsub hmem)]
  have hcount : ∀ node ∈ l, (d.db.grown f k).owners.countP (· = node.id) =
      (d.db.newOwners f k).countP (· = node.id) := fun node hmem => by
    have hzero : d.db.owners.countP (· = node.id) = 0 :=
      countP_eq_zero.mpr fun id hid h => hold node hmem (of_decide_eq_true h ▸ hid)
    rw [howners, countP_append, hzero, zero_add]
  obtain ⟨hp', hgrew, hapart', hnot⟩ := (hg.placed.grown f k).chooseAll hn ((hl.map _).nodup hnodup)
    (fun node hmem => find?_id_eq hnodup (hl.subset hmem)) (fun node hmem i hi hlt => by
      rw [howners, getElem?_append_left (hlen.symm ▸ hlt)] at hi
      exact hold node hmem (mem_of_getElem? hi)) hdb
  have hlen' : db'.ptView.length = d.db.ptView.length + k := by
    rw [hgrew.length_eq]
    simp [Db.grown]
  refine ⟨⟨hnodup, hnum ▸ hcluster, ?_, fun id hid => ?_, hp'.all fun i hi => ?_, fun hc => ?_⟩,
    fun h => hapart.mp (hgrew.apart h), fun hpol hgroups hmany hex => hnot hpol hgroups ?_ ?_⟩
  · rwa [← length_eq_zero_iff, hlen']
  · rw [hgrew.owners, howners, mem_append] at hid
    rcases hid with hid | hid
    · obtain ⟨node, hmem, rfl⟩ := hg.owner id hid
      exact ⟨node, hsub hmem, rfl⟩
    · obtain ⟨i, hi, rfl⟩ := mem_map.mp hid
      obtain ⟨node, hmem, hid⟩ := hnew i hi
      exact ⟨node, hl.subset hmem, hid⟩
  · by_cases hlt : i < d.db.ptView.length
    · exact .inl hlt
    · rw [hlen'] at hi
      have hget : (d.db.grown f k).owners[i]? = some (f i) := by
        rw [howners, getElem?_append_right (hlen.symm ▸ not_lt.mp hlt), newOwners,
          getElem?_map, getElem?_range' (by omega)]
        simp
        congr 1
        omega
      obtain ⟨node, hmem, hid⟩ := hnew i (mem_range'_1.mpr ⟨by omega, hi⟩)
      exact .inr ⟨node, hmem, hid ▸ hget⟩
  · rw [hnum] at hc
    exact hapart' (hc.imp_right fun h node hmem => (hcount node hmem).trans_le ((hfew node hmem).trans h))
      (hapart.mpr (hg.apart hc))
  · exact fun node hmem => hcount node hmem ▸ hmany node hmem
  · obtain ⟨node, hmem, h⟩ := hex
    exact ⟨node, hmem, hcount node hmem ▸ h⟩

theorem initDataNodePtView_eq (h : d.clusterPtNum ≤ d.ptNumPerNode * d.getWriteNode.length) :
    d.initDataNodePtView = { d with clusterPtNum := d.ptNumPerNode * d.getWriteNode.length } := by
  unfold Data.initDataNodePtView
  dsimp only
  split_ifs with hlt
  · rfl
  · rw [← le_antisymm h (not_lt.mp hlt)]

/-- **A data node keeps what holds**, and two members in one place stay there. -/
theorem Good.createDataNode (hg : Good policy n d) (hn : 2 ≤ n) {dn : DataNode}
    (hnew : ∀ node ∈ d.dataNodes, node.id ≠ dn.id) {e : Data} (he : d.createDataNode policy n dn = e) :
    Good policy n e ∧ (Apart e.dataNodes policy e.db → Apart d.dataNodes policy d.db) ∧
      e.dataNodes ⊆ dn :: d.dataNodes ∧ (d.db.ptView = [] → e.db.ptView = []) ∧ e.ptNumPerNode = d.ptNumPerNode := by
  unfold Data.createDataNode at he
  split_ifs at he with hany
  · subst he
    exact ⟨hg, id, subset_cons_self _ _, id, rfl⟩
  dsimp only at he
  -- the new node without partitions
  generalize hd0 : ({ d with dataNodes := stableSort (·.id) (d.dataNodes ++ [dn]) }) = d0 at he
  have hperm0 : d0.dataNodes.Perm (dn :: d.dataNodes) := hd0 ▸ (stableSort_perm _ _).trans (perm_append_singleton _ _)
  have hwrite : d0.getWriteNode.length = d.getWriteNode.length + (if Data.isNodeWriter dn.role then 1 else 0) := by
    rw [Data.getWriteNode, (hperm0.filter _).length_eq, filter_cons]
    split_ifs <;> rfl
  have hle : d0.clusterPtNum ≤ d0.ptNumPerNode * d0.getWriteNode.length := by
    rw [hwrite, ← hd0]
    exact hg.cluster ▸ Nat.mul_le_mul_left _ (Nat.le_add_right _ _)
  rw [initDataNodePtView_eq hle] at he
  generalize hd1 : ({ d0 with clusterPtNum := _ }) = d1 at he
  have hdb : d1.db = d.db := by rw [← hd1, ← hd0]
  have hnum : d1.ptNumPerNode = d.ptNumPerNode := by rw [← hd1, ← hd0]
  have hcluster : d1.clusterPtNum = d.ptNumPerNode * d1.getWriteNode.length := by rw [← hnum, ← hd1]; rfl
  have hperm : d1.dataNodes.Perm (dn :: d.dataNodes) := hd1 ▸ hperm0
  have hnodup : (d1.dataNodes.map (·.id)).Nodup := by
    refine (hperm.map _).nodup_iff.mpr (nodup_cons.mpr ⟨fun hin => ?_, hg.nodup⟩)
    obtain ⟨node, hn, he⟩ := mem_map.mp hin
    exact hnew node hn he
  have hsub : d.dataNodes ⊆ d1.dataNodes := fun node hmem => hperm.mem_iff.mpr (mem_cons_of_mem dn hmem)
  rw [show d0.getWriteNode = d1.getWriteNode by rw [← hd1]; rfl] at hwrite
  have hplain : d.db.ptView.length = 0 ∨ d.db.ptView.length = d1.clusterPtNum → Good policy n d1 ∧
      (Apart d1.dataNodes policy d1.db → Apart d.dataNodes policy d.db) ∧ d1.dataNodes ⊆ dn :: d.dataNodes ∧
      (d.db.ptView = [] → d1.db.ptView = []) ∧ d1.ptNumPerNode = d.ptNumPerNode := by
    intro hsize
    obtain ⟨hgood, hapart, -⟩ := hg.extend hn (k := 0) (f := id) (show _ = d1.db by simp [hdb, grown]) hnum
      hsub hnodup hcluster hsize (nil_sublist _) (by simp) (by simp) (by simp)
    exact ⟨hgood, hapart, hperm.subset, fun h => hdb ▸ h, hnum⟩
  split_ifs at he with hrole
  · subst he
    refine hplain (hrole.elim (fun hr => ?_) fun h => .inl (length_eq_zero_iff.mpr (hdb ▸ h)))
    refine hg.size.imp length_eq_zero_iff.mpr fun hs => ?_
    rw [hs, hcluster, hwrite, hg.cluster, hr]
    rfl
  · have hne : d.db.ptView ≠ [] := fun h => hrole (.inr (hdb ▸ h))
    have hlen : d.db.ptView.length + d.ptNumPerNode = d1.clusterPtNum := by
      have hw : Data.isNodeWriter dn.role = true := by
        cases hr : dn.role with
        | reader => exact absurd (.inl hr) hrole
        | default | writer => rfl
      rw [hg.size.resolve_left hne, hcluster, hwrite, hg.cluster, hw, if_pos rfl, Nat.mul_succ]
    unfold Data.expandDBPtView at he
    dsimp only at he
    rw [hdb] at he
    split_ifs at he with hsame
    · subst he
      exact hplain (.inr hsame.symm)
    · have hassign := foldl_updatePtStatus (fun _ => dn.id) d.db (.inr ⟨rfl, hlen.symm⟩)
      rw [replicate_zero, append_nil] at hassign
      rw [show d1.clusterPtNum - d.db.ptView.length = d.ptNumPerNode by omega, hassign] at he
      subst he
      obtain ⟨hgood, hapart, -⟩ := hg.extend hn rfl hnum hsub hnodup hcluster (.inr hlen)
        (singleton_sublist.mpr (hperm.mem_iff.mpr mem_cons_self)) (fun node hmem hid => by
          obtain ⟨old, hold, hid⟩ := hg.owner _ hid
          exact hnew old hold (hid.trans (congrArg _ (mem_singleton.mp hmem))))
        (fun i _ => ⟨dn, mem_singleton_self dn, rfl⟩) (fun _ _ => countP_le_length.trans (by simp [newOwners]))
      exact ⟨hgood, hapart, hperm.subset, fun h => absurd h hne, hnum⟩
    · omega

/-- In turns over some nodes, every node gets as many partitions as there are turns. -/
theorem countP_turns {ids : List ℕ} (hnodup : ids.Nodup) {id : ℕ} (hid : id ∈ ids) (p : ℕ) :
    ((range' 0 (p * ids.length)).map fun i => (ids[i % ids.length]?).getD 0).countP (· = id) = p := by
  obtain ⟨c, hlt, hc⟩ := getElem_of_mem hid
  have hr : 0 < ids.length := by omega
  have hiff : ∀ i, (ids[i % ids.length]?).getD 0 = id ↔ i ≡ c [MOD ids.length] := fun i => by
    rw [getElem?_eq_getElem (Nat.mod_lt i hr), Option.getD_some, ← hc, hnodup.getElem_inj_iff, Nat.ModEq,
      Nat.mod_eq_of_lt hlt]
  have hcount := Nat.count_modEq_card (p * ids.length) hr c
  rw [Nat.mul_mod_left, Nat.mul_div_cancel _ hr, Nat.count_eq_card_filter_range] at hcount
  rw [countP_map, ← range_eq_range', countP_eq_length_filter]
  simp only [Function.comp_def, hiff]
  exact hcount

theorem createDbPtView_of_nil (hview : d.db.ptView = []) (hwrite : d.getWriteNode = []) :
    d.createDbPtView policy n = d := by
  unfold Data.createDbPtView Data.assignPtForWAF
  rw [if_neg (not_not.mpr hview), if_pos hwrite]

theorem Good.membersAt_of_nil (hg : Good policy n d) (hview : d.db.ptView = []) (j : ℕ) : d.db.membersAt j = [] := by
  refine eq_nil_iff_forall_not_mem.mpr fun i hi => ?_
  obtain ⟨-, p, hp, -⟩ := (hg.placed.member i j).mp hi
  simp [hview] at hp

theorem Good.createDbPtView (hg : Good policy n d) (hn : 2 ≤ n) (hview : d.db.ptView = []) {e : Data}
    (he : d.createDbPtView policy n = e) :
    Good policy n e ∧ e.dataNodes = d.dataNodes ∧ e.ptNumPerNode = d.ptNumPerNode ∧
      (d.getWriteNode ≠ [] → policy = .nodeHard → 3 ≤ d.ptNumPerNode → ¬ Apart e.dataNodes policy e.db) := by
  by_cases hwrite : d.getWriteNode = []
  · rw [createDbPtView_of_nil hview hwrite] at he
    exact he ▸ ⟨hg, rfl, rfl, fun h => absurd hwrite h⟩
  generalize hids : d.getWriteNode.map (·.id) = ids
  have hr : d.getWriteNode.length = ids.length := by rw [← hids, length_map]
  have hpos : 0 < ids.length := hr ▸ length_pos_iff.mpr hwrite
  have hturn : ∀ i : ℕ, (ids[i % ids.length]?).getD 0 ∈ ids := fun i => by
    rw [getElem?_eq_getElem (Nat.mod_lt i hpos)]
    exact getElem_mem _
  have hsub : ∀ id ∈ ids, ∃ node ∈ d.dataNodes, node.id = id := fun id hid => by
    obtain ⟨node, hmem, rfl⟩ := mem_map.mp (hids ▸ hid)
    exact ⟨node, mem_of_mem_filter hmem, rfl⟩
  have hlen : d.db.ptView.length = 0 := by rw [hview]; rfl
  have hassign := foldl_updatePtStatus (fun i => (ids[i % ids.length]?).getD 0) d.db
    (.inr ⟨rfl, (hlen ▸ zero_add d.clusterPtNum).symm⟩)
  rw [replicate_zero, append_nil, hlen, ← range_eq_range'] at hassign
  unfold Data.createDbPtView Data.assignPtForWAF Data.createDBReplication at he
  rw [if_neg (not_not.mpr hview), if_neg hwrite] at he
  simp only [hids, hr, hassign, if_pos (show 1 < n from hn)] at he
  -- a node has no partition or its number of them
  generalize hf : (fun i : ℕ => (ids[i % ids.length]?).getD 0) = f at he
  replace hturn : ∀ i, f i ∈ ids := fun i => hf ▸ hturn i
  have hcount : ∀ id : ℕ, id ∉ ids ∧ (d.db.newOwners f d.clusterPtNum).countP (· = id) = 0 ∨
      (d.db.newOwners f d.clusterPtNum).countP (· = id) = d.ptNumPerNode := fun id => by
    by_cases hid : id ∈ ids
    · rw [newOwners, hlen, hg.cluster, hr, ← hf]
      exact .inr (countP_turns (hids ▸ (filter_sublist.map _).nodup hg.nodup) hid _)
    · refine .inl ⟨hid, countP_eq_zero.mpr fun o ho h => hid ?_⟩
      obtain ⟨i, -, rfl⟩ := mem_map.mp ho
      exact of_decide_eq_true h ▸ hturn i
  subst he
  obtain ⟨hgood, -, hnot⟩ := hg.extend hn rfl rfl (List.Subset.refl _)
    hg.nodup hg.cluster (.inr (by rw [hlen, zero_add])) (Sublist.refl _) (by simp [owners, hview])
      (fun i _ => hsub _ (hturn i))
    (fun node _ => (hcount node.id).elim (fun h => h.2.trans_le (Nat.zero_le _)) Eq.le)
  refine ⟨hgood, rfl, rfl, fun _ hpol hthree => hnot hpol ?_ (fun node _ => ?_) ?_⟩
  · refine eq_nil_iff_forall_not_mem.mpr fun rg hrg => ?_
    obtain ⟨j, hj⟩ := mem_iff_getElem?.mp hrg
    have hm := hg.membersAt_of_nil hview j
    simp [membersAt, hj, members] at hm
  · exact (hcount node.id).imp And.right fun h => hthree.trans_eq h.symm
  · obtain ⟨node, hmem, hid⟩ := hsub _ (hturn 0)
    exact ⟨node, hmem, fun h => (hcount node.id).elim (fun h' => h'.1 (hid ▸ hturn 0)) fun h' => by omega⟩

/-- All but the places is as it should be. -/
theorem Good.apart_iff (hg : Good policy n d) : Spreads policy n d.dataNodes d.db ↔ Apart d.dataNodes policy d.db := by
  have hspot : d.db.place d.dataNodes policy = d.db.spotAt d.dataNodes policy := funext fun i => hg.placed.place_eq i
  have hat : ∀ {j : ℕ} {rg : ReplicaGroup}, d.db.replicaGroups[j]? = some rg → d.db.membersAt j = rg.members :=
    fun h => by rw [membersAt, h]; rfl
  constructor
  · intro h j
    cases hj : d.db.replicaGroups[j]? with
    | none => simp [membersAt, hj]
    | some rg => exact hat hj ▸ hspot ▸ h.apart rg (mem_of_getElem? hj)
  · intro ha
    refine ⟨fun pt hpt => ?_, fun rg hrg => ?_, fun rg hrg => ?_, fun rg hrg i hi => ?_, fun rg hrg => ?_⟩
    · obtain ⟨i, hi⟩ := mem_iff_getElem?.mp hpt
      have hmem := (hg.placed.member i pt.rgid).mpr ⟨trivial, pt, hi, rfl⟩
      rw [hg.placed.pt i pt hi]
      cases hj : d.db.replicaGroups[pt.rgid]? with
      | none => simp [membersAt, hj] at hmem
      | some rg =>
        refine ⟨rg, mem_of_getElem? hj, (hg.placed.group _ rg hj).id_eq, hat hj ▸ hmem, fun rg' hrg' hmem' => ?_⟩
        obtain ⟨j', hj'⟩ := mem_iff_getElem?.mp hrg'
        have hmem := (hg.placed.member i j').mp ((hat hj').symm ▸ hmem')
        grind
    · obtain ⟨j, hj⟩ := mem_iff_getElem?.mp hrg
      exact (hg.placed.group j rg hj).bounded
    · obtain ⟨j, hj⟩ := mem_iff_getElem?.mp hrg
      exact (hg.placed.group j rg hj).full
    · obtain ⟨j, hj⟩ := mem_iff_getElem?.mp hrg
      obtain ⟨-, p, hp, -⟩ := (hg.placed.member i j).mp ((hat hj).symm ▸ hi)
      obtain ⟨node, hmem, hid⟩ := hg.owner p.owner (mem_map_of_mem (mem_of_getElem? hp))
      rw [getDataNodeByPtId, hg.placed.getPtInfo_eq, hp, Option.bind_some, ← hid, find?_id_eq hg.nodup hmem]
      exact Option.some_ne_none node
    · obtain ⟨j, hj⟩ := mem_iff_getElem?.mp hrg
      exact hspot ▸ hat hj ▸ ha j

end Commands

/-- A database with its replicas: the data nodes before and after the partition view is made. -/
structure ReplicaRun where
  policy : RepDisPolicy
  replicasN : ℕ
  two_le : 2 ≤ replicasN
  ptNumPerNode : ℕ
  before : List DataNode
  after : List DataNode
  nodup : ((before ++ after).map (·.id)).Nodup

namespace ReplicaRun

variable (r : ReplicaRun)

def start : Data := ⟨[], r.ptNumPerNode, 0, ⟨[], []⟩⟩

/-- The state in which the database is created. -/
def joined : Data := r.before.foldl (Data.createDataNode r.policy r.replicasN) r.start

def last : Data :=
  r.after.foldl (Data.createDataNode r.policy r.replicasN) (r.joined.createDbPtView r.policy r.replicasN)

variable {r}

theorem good_start : Good r.policy r.replicasN r.start where
  nodup := nodup_nil
  cluster := rfl
  size := .inl rfl
  owner := by simp [start, owners]
  placed := ⟨by simp [start], by simp [start], by simp [start, membersAt]⟩
  apart _ j := by simp [start, membersAt]

theorem good_foldl {policy : RepDisPolicy} {n : ℕ} (hn : 2 ≤ n) {nodes : List DataNode} {d e : Data}
    (hg : Good policy n d) (hnodup : (nodes.map (·.id)).Nodup)
    (hnew : ∀ old ∈ d.dataNodes, ∀ dn ∈ nodes, old.id ≠ dn.id) (he : nodes.foldl (Data.createDataNode policy n) d = e) :
    Good policy n e ∧ (Apart e.dataNodes policy e.db → Apart d.dataNodes policy d.db) ∧
      e.dataNodes ⊆ nodes ++ d.dataNodes ∧ (d.db.ptView = [] → e.db.ptView = []) ∧ e.ptNumPerNode = d.ptNumPerNode := by
  induction nodes generalizing d with
  | nil => exact he ▸ ⟨hg, id, List.Subset.refl _, id, rfl⟩
  | cons dn nodes ih =>
    obtain ⟨hne, hnodup⟩ := nodup_cons.mp hnodup
    obtain ⟨hg1, hapart1, hsub1, hview1, hnum1⟩ := hg.createDataNode hn (fun old ho => hnew old ho dn mem_cons_self) rfl
    obtain ⟨hg2, hapart2, hsub2, hview2, hnum2⟩ := ih hg1 hnodup (fun old ho other hother => by
      rcases mem_cons.mp (hsub1 ho) with rfl | ho
      · exact fun he => hne (mem_map.mpr ⟨other, hother, he.symm⟩)
      · exact hnew old ho other (mem_cons_of_mem dn hother)) he
    refine ⟨hg2, fun h => hapart1 (hapart2 h), fun node hmem => ?_, fun h => hview2 (hview1 h), hnum2.trans hnum1⟩
    grind

/-- **The groups of a database spread their members exactly if** the policy is by zone, or a node has at most two
partitions, or there was no node to create the database on. -/
theorem spreads_iff (r : ReplicaRun) : Spreads r.policy r.replicasN r.last.dataNodes r.last.db ↔
    r.policy = .azHard ∨ r.ptNumPerNode ≤ 2 ∨ r.joined.getWriteNode = [] := by
  have hnodup := r.nodup
  rw [map_append, nodup_append] at hnodup
  obtain ⟨hb, ha, hab⟩ := hnodup
  obtain ⟨hg1, -, hsub1, hview1, hnum1⟩ := good_foldl r.two_le good_start hb (by simp [start]) rfl
  obtain ⟨hg2, hnodes2, hnum2, hnot⟩ := hg1.createDbPtView r.two_le (hview1 rfl) rfl
  obtain ⟨hg3, hapart, -, hview3, hnum3⟩ := good_foldl r.two_le hg2 ha (fun old ho dn hdn => by
    have hold : old ∈ r.before ++ [] := hsub1 (hnodes2 ▸ ho)
    rw [append_nil] at hold
    exact hab _ (mem_map_of_mem hold) _ (mem_map_of_mem hdn)) rfl
  refine hg3.apart_iff.trans ⟨fun h => ?_, ?_⟩
  · by_contra hc
    rw [not_or, not_or, not_le] at hc
    have hpol : r.policy = .nodeHard := by
      cases hp : r.policy with
      | nodeHard => rfl
      | azHard => exact absurd hp hc.1
    exact hnot hc.2.2 hpol (hnum1 ▸ hc.2.1) (hapart h)
  · rintro (h | h | h)
    · exact hg3.apart (.inl h)
    · exact hg3.apart (.inr (by rwa [hnum3, hnum2, hnum1]))
    · intro j
      rw [hg3.membersAt_of_nil (hview3 (by rw [createDbPtView_of_nil (hview1 rfl) h, hview1 rfl]))]
      exact nodup_nil

end ReplicaRun

/-- Three partitions on one node. -/
def threePts : ReplicaRun := ⟨.nodeHard, 2, le_rfl, 3, [⟨1, "host", .default, "az"⟩], [], by decide⟩

/-- Partitions 0 and 2 of the node are in one group. -/
theorem threePts_together :
    ¬ Spreads threePts.policy threePts.replicasN threePts.last.dataNodes threePts.last.db := fun h =>
  absurd (h.apart ⟨0, 0, [⟨2, .slave⟩], .subHealth, 0⟩ (by decide)) (by decide)

end GeminiTS.Replication
