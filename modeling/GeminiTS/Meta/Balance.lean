import Mathlib

/-!
# Balance — moving partitions between the data nodes

The partition ids of a database are taken off the nodes that hold too many and given to those that hold too few
(`planTasks`; `app/ts-meta/meta/balance_store.go`). `balanceDBPts` threads the events through the databases.

* `Data.balanceDBPts_eq_flatMap_iff` — when every database gets the events it plans on its own.
-/

namespace GeminiTS.Balance

open Function (update)

structure PtInfo where
  ptId : ℕ
  owner : ℕ
deriving DecidableEq

structure MvPtInfo where
  ptId : ℕ
  dnId : ℕ

structure TaskData where
  ptId : ℕ
  srcDn : ℕ
  destDn : ℕ

structure BasicData where
  aliveDns : List ℕ
  max : ℕ
  min : ℕ
  ptTHNum : ℕ
  highLvlNum : ℕ
  minOfLH : ℕ
  -- for each node its low (`true`) and high ids
  dnPtIds : ℕ → Bool → List ℕ

/-- What the passes read and write; the low half is `true`. -/
structure State where
  ids : ℕ → Bool → List ℕ
  pts : Bool → List MvPtInfo
  -- `mvNum` or `needNum` of the running loop; the source only tests its sign
  num : ℕ
  -- `lowCnt` and `highCnt`
  cnt : Bool → ℕ
  -- `selFir` (`true`) and `selSec`
  sel : Bool → Bool
  tasks : List TaskData

def repeatWhile {σ : Type} (step : σ → Option σ) : ℕ → σ → σ
  | 0, s => s
  | fuel + 1, s => (step s).elim s (repeatWhile step fuel)

def State.size (s : State) (dn : ℕ) : ℕ := (s.ids dn true).length + (s.ids dn false).length

def State.setIds (s : State) (dn : ℕ) (low : Bool) (l : List ℕ) : State :=
  { s with ids := update s.ids dn (update (s.ids dn) low l) }

def extractPtId (ptTH dn : ℕ) (low : Bool) (s : State) : Option State :=
  match s.num, (s.ids dn low).getLast? with
  | num + 1, some ptId =>
    if (s.ids dn low).length > ptTH then
      some { s.setIds dn low (s.ids dn low).dropLast with
        num, pts := update s.pts low (s.pts low ++ [⟨ptId, dn⟩]) }
    else none
  | _, _ => none

def ruleExtract (fir : Bool) (ptTH dn : ℕ) (s : State) : Option State :=
  let both := (s.ids dn true).length > ptTH ∧ (s.ids dn false).length > ptTH
  let currSelLow := if both then s.sel fir else true
  let s := if both then { s with sel := update s.sel fir !currSelLow } else s
  (if currSelLow then extractPtId ptTH dn true s else none) <|> extractPtId ptTH dn false s

def assignDnPts (ptTH dn : ℕ) (low : Bool) (s : State) : Option State :=
  match s.num, s.pts low with
  | num + 1, p :: ps =>
    if (s.ids dn low).length < ptTH then
      some { s.setIds dn low (s.ids dn low ++ [p.ptId]) with
        num, pts := update s.pts low ps, tasks := s.tasks ++ [⟨p.ptId, p.dnId, dn⟩] }
    else none
  | _, _ => none

section

variable (b : BasicData) (s : State)

-- Every loop below takes one id at a time, so the number of ids it takes from is fuel enough.
def generalSceneExtract : State :=
  let visit := fun (p : State × ℕ) dn =>
    let retainNum := if p.2 = 0 then b.min else b.max
    let total := p.1.size dn
    let p := if total ≥ retainNum then
      (repeatWhile (fun s => ruleExtract true b.ptTHNum dn s <|> ruleExtract false 0 dn s) total
        { p.1 with num := total - retainNum }, p.2 - 1)
      else p
    (repeatWhile (fun s => extractPtId b.ptTHNum dn true s <|> extractPtId b.ptTHNum dn false s)
      total { p.1 with num := 2 ^ 31 - 1 }, p.2)
  (b.aliveDns.foldl visit (s, b.highLvlNum)).1

-- The source also leaves a round once both counts are used up; the nodes after that give nothing.
def onceSpecExtract (skipMax : Bool) : State :=
  let side := fun dn low (s : State) =>
    let s := repeatWhile (extractPtId b.minOfLH dn low) (s.size dn) { s with num := s.cnt low }
    { s with cnt := update s.cnt low s.num }
  b.aliveDns.foldl (fun s dn =>
    if skipMax ∧ s.size dn = b.max then s else side dn false (side dn true s)) s

def specialSceneExtract : State :=
  if b.min < 2 ∨ b.min = b.max then s
  else
    let lack := fun low =>
      (b.aliveDns.dedup.map fun dn => b.minOfLH - (s.ids dn low).length).sum - (s.pts low).length
    onceSpecExtract b (onceSpecExtract b { s with cnt := lack } true) false

def specialSecneAssign : State :=
  if b.min < 2 ∨ b.min = b.max then s
  else
    let side := fun dn low (s : State) =>
      repeatWhile (assignDnPts b.minOfLH dn low) (s.pts low).length { s with num := b.minOfLH - (s.ids dn low).length }
    b.aliveDns.foldl (fun s dn => side dn false (side dn true s)) s

def assignAllPts (ptTHNum : ℕ) : State :=
  let offsetNum := b.highLvlNum - b.aliveDns.countP (s.size · ≥ b.max)
  let visit := fun (p : State × ℕ) dn =>
    if p.1.size dn ≥ b.max then p
    else
      let needNum := b.min - p.1.size dn + if p.2 > 0 then 1 else 0
      let s := repeatWhile (fun s => assignDnPts ptTHNum dn true s <|> assignDnPts ptTHNum dn false s)
        ((p.1.pts true).length + (p.1.pts false).length) { p.1 with num := needNum }
      (s, if s.num = 0 then p.2 - 1 else p.2)
  (b.aliveDns.foldl visit (s, offsetNum)).1

end

/-- `extractNeedMovePtLst` and `balanceAssignPts`. -/
def planTasks (b : BasicData) : List TaskData :=
  let s : State := ⟨b.dnPtIds, fun _ => [], 0, fun _ => 0, fun _ => true, []⟩
  let s := specialSecneAssign b (specialSceneExtract b (generalSceneExtract b s))
  (assignAllPts b (assignAllPts b s b.ptTHNum) (2 ^ 31 - 1)).tasks

structure DataNode where
  id : ℕ
  normal : Bool
  alive : Bool
  connID : ℕ
  aliveConnID : ℕ

structure DatabaseInfo where
  markDeleted : Bool
  -- which of its retention policies are marked deleted
  rpMarkDeleted : List Bool

structure Data where
  sharedStorage : Bool
  balancerEnabled : Bool
  dataNodes : List DataNode
  databases : List (String × DatabaseInfo)
  clusterPtNum : ℕ
  migrateEvents : List String
  ptView : List (String × List PtInfo)

structure MoveEvent where
  db : String
  pt : Option PtInfo
  src : ℕ
  dst : ℕ
  aliveConnID : Option ℕ
deriving DecidableEq

namespace Data

variable (d : Data) (db : String)

def aliveNodes : List ℕ :=
  ((d.dataNodes.filter fun n => n.normal && n.alive && n.aliveConnID == n.connID).map DataNode.id).insertionSort (· ≤ ·)

def checkCanMoveDb : Bool :=
  match d.databases.lookup db with
  | none => false
  | some info => !info.markDeleted && info.rpMarkDeleted.all not &&
    (List.range d.clusterPtNum).all fun ptId => db ++ "$" ++ toString ptId ∉ d.migrateEvents

def view : List PtInfo := (d.ptView.lookup db).getD []

def genDBBalanceBasicData : Option BasicData :=
  let owned := fun dn => (d.view db).filter (·.owner = dn)
  let total := (d.view db).length
  let n := d.aliveNodes.length
  if (d.aliveNodes.map fun dn => (owned dn).length).sum ≠ total then none
  else
    let half := total / 2
    let max := total / n + if total % n > 0 then 1 else 0
    some ⟨d.aliveNodes, max, total / n, max / 2 + max % 2, total % n, half / n, fun dn low =>
      (d.aliveNodes.filter (· = dn)).flatMap fun dn =>
        ((owned dn).map PtInfo.ptId).filter fun ptId => decide (ptId < half) = low⟩

def addMovePtTasks (tasks : List TaskData) (moveEvents : List MoveEvent) : List MoveEvent :=
  moveEvents ++ (tasks.filter fun t => t.srcDn ≠ t.destDn).map fun t =>
    ⟨db, (d.view db).find? (·.ptId = t.ptId), t.srcDn, t.destDn,
      (d.dataNodes.find? (·.id = t.destDn)).map DataNode.aliveConnID⟩

def balanceOneDBPts (moveEvents : List MoveEvent) : List MoveEvent :=
  match d.genDBBalanceBasicData db with
  | none => []
  | some b => d.addMovePtTasks db (planTasks b) moveEvents

def dbLst : List String := (d.ptView.map Prod.fst).insertionSort (· ≤ ·)

def balanceDBPts : List MoveEvent :=
  if !d.sharedStorage || !d.balancerEnabled || d.aliveNodes.isEmpty then []
  else d.dbLst.foldl (fun moveEvents db =>
    if d.checkCanMoveDb db then d.balanceOneDBPts db moveEvents else moveEvents) []

/-- The databases that may be moved: none while the balancer has nothing to work with. -/
def movable : List String :=
  if !d.sharedStorage || !d.balancerEnabled || d.aliveNodes.isEmpty then []
  else d.dbLst.filter d.checkCanMoveDb

-- What the source does with the events so far: one failing database drops them all.
theorem foldl_balanceOneDBPts_iff (l : List String) :
    l.foldl (fun ev db => d.balanceOneDBPts db ev) [] = l.flatMap (d.balanceOneDBPts · []) ↔
      l.Pairwise fun a b => d.genDBBalanceBasicData b = none → d.balanceOneDBPts a [] = [] := by
  induction l using List.reverseRecOn with
  | nil => simp
  | append_singleton l db ih =>
    rw [List.pairwise_append, List.foldl_concat, List.flatMap_append]
    cases hb : d.genDBBalanceBasicData db with
    | none =>
      have h : ∀ ev, d.balanceOneDBPts db ev = [] := by intro ev; simp [balanceOneDBPts, hb]
      simp only [h, List.flatMap_singleton, List.append_nil, List.pairwise_singleton, true_and,
        List.mem_singleton, forall_eq, hb, forall_const]
      rw [eq_comm, List.flatMap_eq_nil_iff, iff_and_self]
      intro hl
      exact List.pairwise_of_forall_mem_list fun a ha _ _ _ => hl a ha
    | some b =>
      have h : ∀ ev, d.balanceOneDBPts db ev = ev ++ d.balanceOneDBPts db [] := by
        intro ev
        simp [balanceOneDBPts, hb, addMovePtTasks]
      rw [h, List.flatMap_singleton, List.append_left_inj, ih]
      simp [hb]

/-- The events are those each movable database plans on its own exactly when no database with events is
followed by one whose partitions are not all on alive nodes. -/
theorem balanceDBPts_eq_flatMap_iff : d.balanceDBPts = d.movable.flatMap (d.balanceOneDBPts · []) ↔
      d.movable.Pairwise fun a b =>
        d.genDBBalanceBasicData b = none → d.balanceOneDBPts a [] = [] := by
  rw [← foldl_balanceOneDBPts_iff, balanceDBPts, movable]
  split
  · rfl
  · rw [List.foldl_filter]

/-- Both partitions of `a` are on node 1, and `b` has one on a node that is not alive. -/
def skewed : Data :=
  ⟨true, true, [⟨1, true, true, 0, 0⟩, ⟨2, true, true, 0, 0⟩, ⟨3, true, false, 0, 0⟩],
    [("a", ⟨false, []⟩), ("b", ⟨false, []⟩)], 2, [], [("a", [⟨0, 1⟩, ⟨1, 1⟩]), ("b", [⟨0, 3⟩])]⟩

theorem skewed_cancelled : skewed.balanceDBPts = [] ∧
      skewed.movable.flatMap (skewed.balanceOneDBPts · []) = [⟨"a", some ⟨0, 1⟩, 1, 2, some 0⟩] := by
  decide +kernel

end Data

end GeminiTS.Balance
