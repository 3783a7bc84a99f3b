import GeminiTS.Lib.Assoc
import GeminiTS.Lib.Bytes
import GeminiTS.Lib.Lists
import GeminiTS.Lib.SortSearch

/-!
# OpsMap — the commands a node has missed

The meta store keeps its last commands in a map, linked by their indexes (`lib/util/lifted/influx/meta/data.go`), so
that a node that is behind can be sent the commands it missed instead of the whole data.

* `History.getOps_iff` — when the answer has every missed command: none of them was cleared or came with a snapshot;
  `restoredCommand_skipped` is a command that no node learns of.
-/

namespace GeminiTS.Meta

open Lib List

variable {C : Type}

def maxUint64 : ℕ := 2 ^ 64 - 1

def OPMAPLIMITCAP : ℕ := 30

/-- A command, the index of the next one (0 if there is none), and its bytes if they were cached. -/
structure Op (C : Type) where
  com : C
  nextOpIndex : ℕ
  cacheBytes : Bytes

/-- The fields of `Data` that keep commands. Without incremental sync the map is nil. -/
structure Data (C : Type) where
  index : ℕ
  opsMap : Option (List (ℕ × Op C))
  opsMapMinIndex : ℕ
  opsMapMaxIndex : ℕ
  opsToMarshalIndex : ℕ

inductive GetOpsState
  | allClear
  | noClear
  deriving DecidableEq

/-! ### The code -/

/-- `NewStore`, with incremental sync. -/
def newStore : Data C := ⟨0, some [], maxUint64, 0, 0⟩

/-- Change the op with an index. -/
def modifyOp (i : ℕ) (f : Op C → Op C) (m : List (ℕ × Op C)) : List (ℕ × Op C) :=
  m.map fun x => if x.1 = i then (x.1, f x.2) else x

/-- Let the op with the greatest index point to a new one. -/
def linkLast (maxIndex newIndex : ℕ) (m : List (ℕ × Op C)) : Option (List (ℕ × Op C)) :=
  if m.length > 0 then
    match m.lookup maxIndex with
    | none => none
    | some _ => some (modifyOp maxIndex (fun o => { o with nextOpIndex := newIndex }) m)
  else some m

/-- `AddCmdAsOpToOpMap`. `useForClient` is the table of the types of commands that clients need. -/
def addCmdAsOpToOpMap (useForClient : C → Bool) (d : Data C) (op : C) (newIndex : ℕ) : Option (Data C) :=
  match d.opsMap with
  | none => some d
  | some m =>
    if !useForClient op then some d
    else if (m.lookup newIndex).isSome then some d
    else
      match linkLast d.opsMapMaxIndex newIndex m with
      | none => none
      | some m' =>
        some { d with
          opsMap := some (m' ++ [(newIndex, ⟨op, 0, []⟩)])
          opsMapMinIndex := if newIndex < d.opsMapMinIndex then newIndex else d.opsMapMinIndex
          opsMapMaxIndex := if newIndex > d.opsMapMaxIndex then newIndex else d.opsMapMaxIndex
          opsToMarshalIndex := if d.opsToMarshalIndex = 0 then newIndex else d.opsToMarshalIndex }

/-- A node of the cluster: the index it has told, and whether it is alive. -/
structure DataNode where
  index : ℕ
  alive : Bool

def getMinAliveNodeTmpIndex (sqlNodes dataNodes : List DataNode) : ℕ :=
  (sqlNodes ++ dataNodes).foldl (fun ret n => if n.index < ret ∧ n.alive then n.index else ret) maxUint64

/-- The loop of `ClearOpsMapV2`: the map that is left, and the index after the last removed one. -/
def clearLoop (minAlive : ℕ) : (rounds start next : ℕ) → List (ℕ × Op C) → Option (List (ℕ × Op C) × ℕ)
  | 0, _, _, _ => none
  | rounds + 1, start, next, m =>
    if start < minAlive ∧ start ≠ 0 then
      match m.lookup start with
      | none => none
      | some op => clearLoop minAlive rounds op.nextOpIndex op.nextOpIndex (m.filter fun x => x.1 ≠ start)
    else some (m, next)

def clearOpsMapV2 (d : Data C) (minAlive : ℕ) : Option (Data C) :=
  let m := d.opsMap.getD []
  if m.length ≤ OPMAPLIMITCAP then some d
  else if minAlive = maxUint64 ∨ d.opsMapMinIndex ≥ minAlive then some d
  else
    match clearLoop minAlive (m.length + 1) d.opsMapMinIndex 0 m with
    | none => none
    | some (m', next) =>
      if next = 0 then
        some { d with opsMap := some m', opsMapMinIndex := maxUint64, opsMapMaxIndex := 0, opsToMarshalIndex := 0 }
      else
        some { d with
          opsMap := some m'
          opsMapMinIndex := next
          opsToMarshalIndex := if d.opsToMarshalIndex < next then next else d.opsToMarshalIndex }

section Marshal

variable (marshal : C → Option Bytes)

/-- The loop of `UpdateOpsMapCacheBytes`. It ends with an error at an index without an op, or at an op that cannot be
encoded; what was done before stays. -/
def cacheLoop : (rounds i : ℕ) → Data C → List (ℕ × Op C) → Option (Data C)
  | 0, _, _, _ => none
  | rounds + 1, i, d, m =>
    if i ≤ d.opsMapMaxIndex then
      match m.lookup i with
      | none => some { d with opsMap := some m }
      | some op =>
        match marshal op.com with
        | none => some { d with opsMap := some m }
        | some bytes =>
          let m' := modifyOp i (fun o => { o with cacheBytes := bytes }) m
          if op.nextOpIndex = 0 then some { d with opsMap := some m', opsToMarshalIndex := 0 }
          else cacheLoop rounds op.nextOpIndex { d with opsToMarshalIndex := op.nextOpIndex } m'
    else some { d with opsMap := some m }

def updateOpsMapCacheBytes (d : Data C) : Option (Data C) :=
  let m := d.opsMap.getD []
  if m.length = 0 ∨ d.opsToMarshalIndex = 0 then some d
  else cacheLoop marshal (m.length + 1) d.opsToMarshalIndex d m

/-- The bytes of an op. -/
def Op.bytes (op : Op C) : Option Bytes := if op.cacheBytes ≠ [] then some op.cacheBytes else marshal op.com

/-- `GetOpsFromStartOp`, with what is there already. -/
def getOpsFromStartOp (m : List (ℕ × Op C)) : (rounds start : ℕ) → List Bytes → Option (List Bytes × GetOpsState)
  | 0, _, _ => none
  | rounds + 1, start, ops =>
    if start ≠ 0 then
      match m.lookup start with
      | none => some ([], .allClear)
      | some op =>
        match op.bytes marshal with
        | none => some ([], .allClear)
        | some bytes => getOpsFromStartOp m rounds op.nextOpIndex (ops ++ [bytes])
    else some (ops, .noClear)

/-- The search for the first op: at most `n` indexes from `i` on are tried. -/
def firstOp (m : List (ℕ × Op C)) : (n i : ℕ) → Option (Op C)
  | 0, _ => none
  | n + 1, i =>
    match m.lookup i with
    | some op => some op
    | none => firstOp m n (i + 1)

def getOps (d : Data C) (oldIndex : ℕ) : Option (List Bytes × GetOpsState) :=
  match d.opsMap with
  | none => some ([], .allClear)
  | some m =>
    if oldIndex < d.opsMapMinIndex ∧ d.opsMapMinIndex ≠ maxUint64 then some ([], .allClear)
    else if oldIndex ≥ d.opsMapMaxIndex then some ([], .noClear)
    else
      match m.lookup oldIndex with
      | some op => getOpsFromStartOp marshal m (m.length + 1) op.nextOpIndex []
      | none =>
        match firstOp m (d.opsMapMaxIndex - oldIndex) (oldIndex + 1) with
        | none => getOpsFromStartOp marshal m (m.length + 1) 0 []
        | some op =>
          match op.bytes marshal with
          | none => some ([], .allClear)
          | some bytes => getOpsFromStartOp marshal m (m.length + 1) op.nextOpIndex [bytes]

end Marshal

/-! ### Histories -/

/-- What happens to the store. A restored snapshot has commands that the store has not applied itself. -/
inductive Event (C : Type)
  | apply (cmd : C) (index : ℕ) (ok : Bool)
  | clear (sqlNodes dataNodes : List DataNode)
  | updateCache
  | restore (missed : List (ℕ × C)) (index : ℕ)

section Run

variable (useForClient : C → Bool) (marshal : C → Option Bytes)

/-- `Apply`, the two background loops, and `Restore`. -/
def Data.step (d : Data C) : Event C → Option (Data C)
  | .apply cmd index ok =>
    let d' := { d with index := index }
    if ok then addCmdAsOpToOpMap useForClient d' cmd index else some d'
  | .clear sqlNodes dataNodes => clearOpsMapV2 d (getMinAliveNodeTmpIndex sqlNodes dataNodes)
  | .updateCache => updateOpsMapCacheBytes marshal d
  | .restore _ index => some { d with index := index }

def Data.run (d : Data C) : List (Event C) → Option (Data C)
  | [] => some d
  | e :: es =>
    match d.step useForClient marshal e with
    | none => none
    | some d' => d'.run es

/-- The successful commands for clients that an event brings. -/
def Event.commands : Event C → List (ℕ × C)
  | .apply cmd index ok => if ok && useForClient cmd then [(index, cmd)] else []
  | .restore missed _ => missed
  | _ => []

/-- Indexes are 64-bit numbers that ascend; the commands of a snapshot are behind the index of the store. -/
def Event.Valid (index : ℕ) : Event C → Prop
  | .apply _ i _ => index < i ∧ i ≤ maxUint64
  | .restore missed i => index ≤ i ∧ i ≤ maxUint64 ∧ (missed.map Prod.fst).Pairwise (· < ·) ∧
      ∀ x ∈ missed, index < x.1 ∧ x.1 ≤ i
  | _ => True

/-- The index after an event. -/
def Event.index (index : ℕ) : Event C → ℕ
  | .apply _ i _ => i
  | .restore _ i => i
  | _ => index

def ValidFrom (index : ℕ) : List (Event C) → Prop
  | [] => True
  | e :: es => e.Valid index ∧ ValidFrom (e.index index) es

end Run

/-- A history of a store from its start. -/
structure History (C : Type) where
  events : List (Event C)
  valid : ValidFrom 0 events

/-- The commands for clients up to now. -/
def History.commands (useForClient : C → Bool) (h : History C) : List (ℕ × C) :=
  h.events.flatMap (Event.commands useForClient)

/-! ### The map as a list -/

/-- What is answered, given the encoded commands. -/
def answer (ops : List Bytes) : Option (List Bytes) → List Bytes × GetOpsState
  | none => ([], .allClear)
  | some bs => (ops ++ bs, .noClear)

/-- The index of the first op, 0 if there is none. -/
def firstIndex (m : List (ℕ × Op C)) : ℕ := (m.map Prod.fst).head?.getD 0

theorem firstIndex_cons (x : ℕ × Op C) (m : List (ℕ × Op C)) : firstIndex (x :: m) = x.1 := rfl

/-- The ops behind an index. -/
def behind (m : List (ℕ × Op C)) (i : ℕ) : List (ℕ × Op C) := m.filter fun x => i < x.1

/-- The ops ascend, each points to the next one, and cached bytes are those of the command. -/
structure Ordered (marshal : C → Option Bytes) (m : List (ℕ × Op C)) : Prop where
  ascending : (m.map Prod.fst).Pairwise (· < ·)
  positive : ∀ x ∈ m, 0 < x.1
  linked : ∀ x ∈ m, x.2.nextOpIndex = firstIndex (behind m x.1)
  cached : ∀ x ∈ m, x.2.cacheBytes ≠ [] → marshal x.2.com = some x.2.cacheBytes

/-- A new op behind the others; the one with index `j` points to it. -/
def appended (m : List (ℕ × Op C)) (j i : ℕ) (c : C) : List (ℕ × Op C) :=
  modifyOp j (fun o => { o with nextOpIndex := i }) m ++ [(i, ⟨c, 0, []⟩)]

/-- The commands of a map. -/
def coms (m : List (ℕ × Op C)) : List (ℕ × C) := m.map fun x => (x.1, x.2.com)

section Modify

variable (j : ℕ) (f : Op C → Op C) (m : List (ℕ × Op C))

theorem map_fst_modifyOp : (modifyOp j f m).map Prod.fst = m.map Prod.fst := by
  rw [modifyOp, map_map]
  refine map_congr_left fun x _ => ?_
  dsimp only [Function.comp]
  split_ifs <;> rfl

theorem behind_modifyOp (i : ℕ) : behind (modifyOp j f m) i = modifyOp j f (behind m i) := by
  rw [behind, modifyOp, filter_map]
  refine congrArg (map _) (filter_congr fun x _ => ?_)
  dsimp only [Function.comp]
  split_ifs <;> rfl

theorem firstIndex_modifyOp : firstIndex (modifyOp j f m) = firstIndex m := by
  rw [firstIndex, map_fst_modifyOp, firstIndex]

theorem coms_modifyOp (hf : ∀ o, (f o).com = o.com) : coms (modifyOp j f m) = coms m := by
  rw [coms, modifyOp, map_map]
  refine map_congr_left fun x _ => ?_
  dsimp only [Function.comp]
  split_ifs
  · rw [hf]
  · rfl

theorem map_fst_appended (i : ℕ) (c : C) : (appended m j i c).map Prod.fst = m.map Prod.fst ++ [i] := by
  rw [appended, map_append, map_fst_modifyOp]
  rfl

end Modify

variable {marshal : C → Option Bytes} {m s : List (ℕ × Op C)} {x : ℕ × Op C}

namespace Ordered

variable (h : Ordered marshal m)

include h

theorem lookup (hx : x ∈ m) : m.lookup x.1 = some x.2 := lookup_of_mem_of_nodup (h.ascending.imp Nat.ne_of_lt) hx

theorem bytes_eq (hx : x ∈ m) : x.2.bytes marshal = marshal x.2.com := by
  rw [Op.bytes]
  split_ifs with hc
  · exact (h.cached x hx hc).symm
  · rfl

variable {j i k : ℕ}

omit h in
theorem behind_behind (hik : i ≤ k) (m : List (ℕ × Op C)) : behind (behind m i) k = behind m k := by
  rw [behind, behind, filter_filter]
  refine filter_congr fun y _ => ?_
  rw [← Bool.decide_and]
  exact decide_eq_decide.mpr (by omega)

theorem behind_cons (hs : behind m i = x :: s) : x ∈ m ∧ i < x.1 ∧ behind m x.1 = s := by
  obtain ⟨hx, hlt⟩ := mem_filter.mp (hs ▸ mem_cons_self)
  have hlt : i < x.1 := of_decide_eq_true hlt
  have hasc : ((x :: s).map Prod.fst).Pairwise (· < ·) := hs ▸ h.ascending.sublist (filter_sublist.map _)
  refine ⟨hx, hlt, ?_⟩
  rw [← behind_behind hlt.le, hs, behind, filter_cons_of_neg (by simp)]
  exact filter_eq_self.mpr fun y hy => decide_eq_true ((pairwise_cons.mp hasc).1 y.1 (mem_map_of_mem hy))

theorem behind (k : ℕ) : Ordered marshal (behind m k) where
  ascending := h.ascending.sublist (filter_sublist.map _)
  positive x hx := h.positive x (mem_of_mem_filter hx)
  linked x hx := by
    obtain ⟨hx, hlt⟩ := mem_filter.mp hx
    rw [behind_behind (of_decide_eq_true hlt).le, h.linked x hx]
  cached x hx := h.cached x (mem_of_mem_filter hx)

/-- `GetOpsFromStartOp` gives the rest of the list, or nothing if a command cannot be encoded. -/
theorem getOpsFromStartOp {rounds : ℕ} (hrounds : (Meta.behind m i).length < rounds) (ops : List Bytes) :
    getOpsFromStartOp marshal m rounds (firstIndex (Meta.behind m i)) ops =
      some (answer ops ((Meta.behind m i).mapM fun x => marshal x.2.com)) := by
  induction rounds generalizing i ops with
  | zero => omega
  | succ rounds ih =>
    cases hs : Meta.behind m i with
    | nil =>
      rw [Meta.getOpsFromStartOp, if_neg (show ¬ firstIndex [] ≠ 0 from not_not.mpr rfl)]
      change _ = some (ops ++ [], _)
      rw [append_nil]
    | cons x s =>
      obtain ⟨hx, -, rfl⟩ := h.behind_cons hs
      rw [hs] at hrounds
      rw [Meta.getOpsFromStartOp, firstIndex_cons, if_pos (h.positive x hx).ne', h.lookup hx]
      simp only [h.bytes_eq hx, mapM_cons]
      cases marshal x.2.com with
      | none => rfl
      | some b =>
        change Meta.getOpsFromStartOp marshal m rounds x.2.nextOpIndex (ops ++ [b]) = _
        rw [h.linked x hx, ih (Nat.lt_of_succ_lt_succ hrounds)]
        cases (Meta.behind m x.1).mapM fun x => marshal x.2.com with
        | none => rfl
        | some bs => exact congrArg some (congrArg (·, _) (append_assoc ops [b] bs))

/-- The search tries index after index, up to the first op behind. -/
theorem firstOp {n : ℕ} (hs : Meta.behind m i = x :: s) (hn : x.1 ≤ i + n) : firstOp m n (i + 1) = some x.2 := by
  obtain ⟨hx, hlt, hbehind⟩ := h.behind_cons hs
  induction n generalizing i with
  | zero => omega
  | succ n ih =>
    rw [Meta.firstOp]
    rcases Nat.eq_or_lt_of_le hlt with heq | hlt'
    · rw [show i + 1 = x.1 from heq, h.lookup hx]
    · have hnone : i + 1 ∉ m.map Prod.fst := by
        intro hmem
        obtain ⟨y, hy, hyi⟩ := mem_map.mp hmem
        have hy' : y ∈ x :: s := hs ▸ mem_filter.mpr ⟨hy, decide_eq_true (by omega)⟩
        rcases mem_cons.mp hy' with rfl | hy'
        · omega
        · rw [← hbehind] at hy'
          have := of_decide_eq_true (mem_filter.mp hy').2
          omega
      rw [lookup_eq_none.mpr hnone]
      refine ih ?_ (by omega) hlt'
      rw [← hs]
      refine filter_congr fun y hy => decide_eq_decide.mpr ?_
      have hne : y.1 ≠ i + 1 := fun hyi => hnone (hyi ▸ mem_map_of_mem hy)
      omega

theorem clearLoop (next rounds : ℕ) (hik : i ≤ k) (hrounds : (Meta.behind m i).length < rounds)
    (hnext : next = firstIndex (Meta.behind m i) ∨ ∃ x ∈ Meta.behind m i, x.1 ≤ k) :
    clearLoop (k + 1) rounds (firstIndex (Meta.behind m i)) next (Meta.behind m i) =
      some (Meta.behind m k, firstIndex (Meta.behind m k)) := by
  have hk := behind_behind hik m
  generalize hs : Meta.behind m i = s at hrounds hnext hk ⊢
  induction s generalizing i next rounds with
  | nil =>
    obtain ⟨rounds, rfl⟩ : ∃ n, rounds = n + 1 := ⟨rounds - 1, by omega⟩
    obtain rfl : next = 0 := hnext.resolve_right (by simp)
    rw [← hk]
    rfl
  | cons x s ih =>
    obtain ⟨rounds, rfl⟩ : ∃ n, rounds = n + 1 := ⟨rounds - 1, by omega⟩
    obtain ⟨hx, -, hbehind⟩ := h.behind_cons hs
    have hlt : ∀ y ∈ s, x.1 < y.1 := by
      rw [← hbehind]
      exact fun y hy => of_decide_eq_true (mem_filter.mp hy).2
    rw [Meta.clearLoop, firstIndex_cons]
    by_cases hxk : x.1 ≤ k
    · have hrest : (x :: s).filter (fun y => y.1 ≠ x.1) = s := by
        rw [filter_cons_of_neg (by simp)]
        exact filter_eq_self.mpr fun y hy => decide_eq_true (hlt y hy).ne'
      rw [if_pos ⟨by omega, (h.positive x hx).ne'⟩, lookup_cons_self]
      change Meta.clearLoop (k + 1) rounds x.2.nextOpIndex x.2.nextOpIndex ((x :: s).filter _) = _
      rw [hrest, h.linked x hx, hbehind]
      exact ih _ _ hxk hbehind (Nat.lt_of_succ_lt_succ hrounds) (.inl rfl) (by rw [← hbehind, behind_behind hxk])
    · have hall : Meta.behind (x :: s) k = x :: s :=
        filter_eq_self.mpr (forall_mem_cons.mpr ⟨by simpa using hxk, fun y hy => by have := hlt y hy; simp; omega⟩)
      rw [if_neg (fun hc => hxk (Nat.le_of_lt_succ hc.1)), ← hk, hall]
      refine congrArg (fun n => some (x :: s, n)) (hnext.resolve_right ?_)
      rintro ⟨y, hy, hyk⟩
      rw [← hall] at hy
      exact absurd hyk (of_decide_eq_true (mem_filter.mp hy).2).not_ge

theorem modify {f : Op C → Op C} (hnext : ∀ o, (f o).nextOpIndex = o.nextOpIndex)
    (hcached : ∀ x ∈ m, x.1 = j → marshal (f x.2).com = some (f x.2).cacheBytes) :
    Ordered marshal (modifyOp j f m) where
  ascending := by
    rw [map_fst_modifyOp]
    exact h.ascending
  positive := forall_mem_map.mpr fun x hx => by split_ifs <;> exact h.positive x hx
  linked := forall_mem_map.mpr fun x hx => by
    rw [behind_modifyOp, firstIndex_modifyOp]
    split_ifs
    · rw [hnext, h.linked x hx]
    · exact h.linked x hx
  cached := forall_mem_map.mpr fun x hx => by
    split_ifs with hj
    · exact fun _ => hcached x hx hj
    · exact h.cached x hx

theorem concat (hj : ∀ x ∈ m, x.1 ≤ j ∧ j ∈ m.map Prod.fst) (hi : ∀ x ∈ m, x.1 < i) (h0 : 0 < i) (c : C) :
    Ordered marshal (appended m j i c) where
  ascending := by
    rw [map_fst_appended]
    refine pairwise_append.mpr ⟨h.ascending, pairwise_singleton _ _, fun a ha b hb => ?_⟩
    obtain ⟨x, hx, rfl⟩ := mem_map.mp ha
    exact mem_singleton.mp hb ▸ hi x hx
  positive := by
    refine forall_mem_append.mpr ⟨forall_mem_map.mpr fun x hx => ?_, forall_mem_singleton.mpr h0⟩
    split_ifs <;> exact h.positive x hx
  linked := by
    have hbehind (k : ℕ) (hk : k < i) : Meta.behind (appended m j i c) k = appended (Meta.behind m k) j i c := by
      rw [appended, appended, ← behind_modifyOp, Meta.behind, filter_append,
        filter_cons_of_pos (by exact decide_eq_true hk),
        Meta.behind, filter_nil]
    refine forall_mem_append.mpr ⟨forall_mem_map.mpr fun x hx => ?_, forall_mem_singleton.mpr ?_⟩
    · obtain ⟨hxj, hmem⟩ := hj x hx
      by_cases heq : x.1 = j
      · have hnil : Meta.behind m x.1 = [] := filter_eq_nil_iff.mpr fun y hy => by have := (hj y hy).1; simp; omega
        rw [if_pos heq, hbehind _ (hi x hx), hnil]
        rfl
      · -- there is an op behind this one already
        obtain ⟨y, hy, rfl⟩ := mem_map.mp hmem
        have hne : y ∈ Meta.behind m x.1 := mem_filter.mpr ⟨hy, decide_eq_true (by omega)⟩
        rw [if_neg heq, hbehind _ (hi x hx), h.linked x hx, firstIndex, firstIndex, map_fst_appended,
          head?_append_of_ne_nil _ (ne_nil_of_mem (mem_map_of_mem hne))]
    · have hnil : Meta.behind (appended m j i c) i = [] := by
        rw [appended, Meta.behind, filter_append, ← Meta.behind, behind_modifyOp, Meta.behind,
          filter_eq_nil_iff.mpr fun y hy => by have := hi y hy; simp; omega]
        simp [modifyOp]
      rw [hnil]
      rfl
  cached := by
    refine forall_mem_append.mpr ⟨forall_mem_map.mpr fun x hx => ?_, forall_mem_singleton.mpr (absurd rfl)⟩
    split_ifs <;> exact h.cached x hx

end Ordered

/-! ### What the store keeps -/

/-- The store keeps the ops of a list, which are some of the commands up to now. -/
structure Data.Keeps (marshal : C → Option Bytes) (d : Data C) (m : List (ℕ × Op C)) (log : List (ℕ × C)) : Prop where
  map : d.opsMap = some m
  ordered : Ordered marshal m
  min : d.opsMapMinIndex = (m.map Prod.fst).head?.getD maxUint64
  max : d.opsMapMaxIndex = (m.map Prod.fst).getLast?.getD 0
  toMarshal : d.opsToMarshalIndex = 0 ∨ d.opsToMarshalIndex ∈ m.map Prod.fst
  sub : (coms m).Sublist log
  log_ascending : (log.map Prod.fst).Pairwise (· < ·)
  log_le : ∀ y ∈ log, y.1 ≤ d.index
  index_le : d.index ≤ maxUint64

namespace Data.Keeps

variable {d : Data C} {log : List (ℕ × C)}

variable {i : ℕ} {y : ℕ × Op C}

theorem le_index (h : d.Keeps marshal m log) (hy : y ∈ m) : y.1 ≤ d.index :=
  h.log_le _ (h.sub.subset (mem_map_of_mem hy))

theorem le_max (h : d.Keeps marshal m log) (hy : y ∈ m) :
    y.1 ≤ d.opsMapMaxIndex ∧ d.opsMapMaxIndex ∈ m.map Prod.fst := by
  have hmem : y.1 ∈ m.map Prod.fst := mem_map_of_mem hy
  obtain ⟨b, hb⟩ : ∃ b, (m.map Prod.fst).getLast? = some b := ⟨_, getLast?_eq_some_getLast (ne_nil_of_mem hmem)⟩
  rw [h.max, hb]
  exact ⟨le_getLast? h.ordered.ascending hb hmem, mem_of_getLast? hb⟩

theorem advance (h : d.Keeps marshal m log) (hi : d.index ≤ i) (hmax : i ≤ maxUint64) {missed : List (ℕ × C)}
    (hasc : (missed.map Prod.fst).Pairwise (· < ·)) (hmissed : ∀ y ∈ missed, d.index < y.1 ∧ y.1 ≤ i) :
    Data.Keeps marshal { d with index := i } m (log ++ missed) :=
  { h with
    sub := h.sub.trans (sublist_append_left _ _)
    log_ascending := by
      rw [map_append, pairwise_append]
      refine ⟨h.log_ascending, hasc, fun a ha b hb => ?_⟩
      obtain ⟨y, hy, rfl⟩ := mem_map.mp ha
      obtain ⟨z, hz, rfl⟩ := mem_map.mp hb
      exact (h.log_le y hy).trans_lt (hmissed z hz).1
    log_le := by
      intro y hy
      rcases mem_append.mp hy with hy | hy
      · exact (h.log_le y hy).trans hi
      · exact (hmissed y hy).2
    index_le := hmax }

theorem newStore : (newStore : Data C).Keeps marshal [] [] :=
  ⟨rfl, ⟨.nil, fun _ h => absurd h not_mem_nil, fun _ h => absurd h not_mem_nil, fun _ h => absurd h not_mem_nil⟩, rfl,
    rfl, .inl rfl, .slnil, .nil, fun _ h => absurd h not_mem_nil, Nat.zero_le _⟩

theorem addCmd (h : d.Keeps marshal m log) (hi : d.index < i) (hmax : i ≤ maxUint64) {useForClient : C → Bool} {c : C}
    (hc : useForClient c = true) :
    ∃ d' m', addCmdAsOpToOpMap useForClient { d with index := i } c i = some d' ∧ d'.index = i ∧
      d'.Keeps marshal m' (log ++ [(i, c)]) := by
  have hlt (y : ℕ × Op C) (hy : y ∈ m) : y.1 < i := (h.le_index hy).trans_lt hi
  have hnone : m.lookup i = none := by
    refine lookup_eq_none.mpr fun hmem => ?_
    obtain ⟨y, hy, rfl⟩ := mem_map.mp hmem
    exact lt_irrefl _ (hlt y hy)
  have hadv := h.advance hi.le hmax (show ([(i, c)].map Prod.fst).Pairwise (· < ·) from pairwise_singleton _ _)
    (forall_mem_singleton.mpr ⟨hi, le_refl i⟩)
  have hlink : linkLast d.opsMapMaxIndex i m =
      some (modifyOp d.opsMapMaxIndex (fun o => { o with nextOpIndex := i }) m) := by
    rw [linkLast]
    cases m with
    | nil => rfl
    | cons y m =>
      obtain ⟨x, hx, hmax⟩ := mem_map.mp (h.le_max mem_cons_self).2
      rw [if_pos (show (y :: m).length > 0 from Nat.succ_pos _), ← hmax, h.ordered.lookup hx]
  have hkeys := map_fst_appended d.opsMapMaxIndex m i c
  simp only [addCmdAsOpToOpMap, h.map, hc, hnone, hlink]
  refine ⟨_, appended m d.opsMapMaxIndex i c, rfl, rfl, rfl,
    h.ordered.concat (fun x hx => h.le_max hx) hlt (Nat.zero_lt_of_lt hi) c, ?_, ?_, ?_, ?_,
    hadv.log_ascending, hadv.log_le, hadv.index_le⟩
  · rw [hkeys]
    rw [h.min]
    cases m with
    | nil => exact ite_eq_left_iff.mpr fun hle => le_antisymm (not_lt.mp hle) hmax
    | cons y m => exact if_neg (hlt y mem_cons_self).not_gt
  · rw [hkeys, getLast?_concat]
    refine if_pos ?_
    cases m with
    | nil =>
      rw [h.max]
      exact Nat.zero_lt_of_lt hi
    | cons y m =>
      obtain ⟨x, hx, hmax⟩ := mem_map.mp (h.le_max mem_cons_self).2
      exact hmax ▸ hlt x hx
  · rw [hkeys, mem_append]
    by_cases h0 : d.opsToMarshalIndex = 0
    · rw [if_pos h0]
      exact .inr (.inr mem_cons_self)
    · rw [if_neg h0]
      exact .inr (.inl (h.toMarshal.resolve_left h0))
  · rw [appended, coms, map_append, ← coms, coms_modifyOp _ _ _ (by exact fun _ => rfl)]
    exact h.sub.append (List.Sublist.refl [(i, c)])

theorem clear (h : d.Keeps marshal m log) (minAlive : ℕ) :
    ∃ d' m', clearOpsMapV2 d minAlive = some d' ∧ d'.index = d.index ∧ d'.Keeps marshal m' log := by
  simp only [clearOpsMapV2, h.map, Option.getD_some]
  split_ifs with hcap hmin
  · exact ⟨d, m, rfl, rfl, h⟩
  · exact ⟨d, m, rfl, rfl, h⟩
  obtain ⟨k, rfl⟩ : ∃ k, minAlive = k + 1 := ⟨minAlive - 1, by omega⟩
  obtain ⟨x, hx, hfirst⟩ : ∃ x ∈ m, d.opsMapMinIndex = x.1 ∧ firstIndex m = x.1 := by
    rw [h.min]
    cases m with
    | nil => exact absurd (Nat.zero_le _) hcap
    | cons x m => exact ⟨x, mem_cons_self, rfl, rfl⟩
  have hall : behind m 0 = m := filter_eq_self.mpr fun y hy => decide_eq_true (h.ordered.positive y hy)
  have hloop := h.ordered.clearLoop 0 (m.length + 1) (Nat.zero_le k) (by rw [hall]; omega)
    (.inr ⟨x, hall.symm ▸ hx, by omega⟩)
  rw [hall, hfirst.2, ← hfirst.1] at hloop
  rw [hloop]
  have hordered := h.ordered.behind k
  have hsub : (coms (behind m k)).Sublist log := (filter_sublist.map _).trans h.sub
  have hsplit := filter_append_filter Prod.fst ((pairwise_map.mp h.ordered.ascending).imp le_of_lt) k
  cases hrest : behind m k with
  | nil => exact ⟨_, [], rfl, rfl, ⟨rfl, hrest ▸ hordered, rfl, rfl, .inl rfl, nil_sublist _, h.log_ascending, h.log_le,
      h.index_le⟩⟩
  | cons y rest =>
    have hy := h.ordered.behind_cons hrest
    rw [hrest] at hordered hsub
    simp only [show firstIndex (y :: rest) = y.1 from rfl, if_neg (h.ordered.positive y hy.1).ne']
    refine ⟨_, y :: rest, rfl, rfl, ⟨rfl, hordered, rfl, ?_, ?_, hsub, h.log_ascending, h.log_le, h.index_le⟩⟩
    · change d.opsMapMaxIndex = _
      rw [h.max, ← hsplit, ← hrest, map_append,
        getLast?_append_of_ne_nil _ (by rw [← behind, hrest]; exact cons_ne_nil _ _)]
      rfl
    · change (if d.opsToMarshalIndex < y.1 then _ else d.opsToMarshalIndex) = 0 ∨ _
      split_ifs with hlt
      · exact .inr mem_cons_self
      · refine h.toMarshal.imp_right fun hmem => ?_
        obtain ⟨z, hz, heq⟩ := mem_map.mp hmem
        rw [← hrest, ← heq]
        exact mem_map_of_mem (mem_filter.mpr ⟨hz, decide_eq_true (by omega)⟩)

theorem cacheLoop {rounds : ℕ} (h : Data.Keeps marshal { d with opsMap := some m } m log) (hi : i ∈ m.map Prod.fst)
    (hrounds : (behind m i).length < rounds) :
    ∃ d' m', cacheLoop marshal rounds i d m = some d' ∧ d'.index = d.index ∧ d'.Keeps marshal m' log := by
  induction rounds generalizing d m i with
  | zero => omega
  | succ rounds ih =>
    obtain ⟨x, hx, rfl⟩ := mem_map.mp hi
    simp only [Meta.cacheLoop, h.ordered.lookup hx]
    rw [if_pos (h.le_max hx).1]
    cases hm : marshal x.2.com with
    | none => exact ⟨_, _, rfl, rfl, h⟩
    | some b =>
      have hordered : Ordered marshal (modifyOp x.1 (fun o => { o with cacheBytes := b }) m) := by
        refine h.ordered.modify (fun _ => rfl) fun y hy hyx => ?_
        have hlookup := h.ordered.lookup hy
        rw [hyx, h.ordered.lookup hx] at hlookup
        rw [← Option.some.inj hlookup]
        exact hm
      -- What changes is the cache, and where to go on.
      have hkeeps (i : ℕ) (hi : i = 0 ∨ i ∈ m.map Prod.fst) : Data.Keeps marshal { d with
            opsMap := some (modifyOp x.1 (fun o => { o with cacheBytes := b }) m), opsToMarshalIndex := i }
            (modifyOp x.1 (fun o => { o with cacheBytes := b }) m) log := by
        refine ⟨rfl, hordered, ?_, ?_, ?_, ?_, h.log_ascending, h.log_le, h.index_le⟩
        · rw [map_fst_modifyOp]
          exact h.min
        · rw [map_fst_modifyOp]
          exact h.max
        · rwa [map_fst_modifyOp]
        · rw [coms_modifyOp _ _ _ (by exact fun _ => rfl)]
          exact h.sub
      split_ifs with h0
      · exact ⟨_, _, rfl, rfl, hkeeps 0 (.inl rfl)⟩
      · cases hbehind : behind m x.1 with
        | nil =>
          rw [h.ordered.linked x hx, hbehind] at h0
          exact absurd rfl h0
        | cons y s =>
          obtain ⟨hy, -, hs⟩ := h.ordered.behind_cons hbehind
          have hmem : y.1 ∈ m.map Prod.fst := mem_map_of_mem hy
          rw [h.ordered.linked x hx, hbehind, firstIndex_cons]
          refine ih (hkeeps y.1 (.inr hmem)) (by rwa [map_fst_modifyOp]) ?_
          rw [behind_modifyOp, hs, modifyOp, length_map]
          rw [hbehind, length_cons] at hrounds
          omega

theorem updateCache (h : d.Keeps marshal m log) :
    ∃ d' m', updateOpsMapCacheBytes marshal d = some d' ∧ d'.index = d.index ∧ d'.Keeps marshal m' log := by
  simp only [updateOpsMapCacheBytes, h.map]
  split_ifs with hstop
  · exact ⟨d, m, rfl, rfl, h⟩
  have hd : { d with opsMap := some m } = d := by rw [← h.map]
  refine cacheLoop (hd.symm ▸ h) (h.toMarshal.resolve_left fun h0 => hstop (.inr h0)) ?_
  exact Nat.lt_succ_of_le (length_filter_le _ _)

/-- **What the map answers**: the ops behind the index, unless the index is below the first of them. -/
theorem getOps (h : d.Keeps marshal m log) (oldIndex : ℕ) : getOps marshal d oldIndex =
    some (if oldIndex < d.opsMapMinIndex ∧ d.opsMapMinIndex ≠ maxUint64 then ([], .allClear)
      else answer [] ((behind m oldIndex).mapM fun x => marshal x.2.com)) := by
  have hlen (i : ℕ) : (behind m i).length < m.length + 1 := Nat.lt_succ_of_le (length_filter_le _ _)
  simp only [Meta.getOps, h.map]
  split_ifs with hclear hend
  · rfl
  · -- No op is behind the greatest index.
    have hnone : behind m oldIndex = [] := by
      refine filter_eq_nil_iff.mpr fun x hx => ?_
      rw [decide_eq_true_eq, not_lt]
      exact (h.le_max hx).1.trans hend
    rw [hnone]
    rfl
  · cases hlookup : m.lookup oldIndex with
    | some op =>
      change getOpsFromStartOp marshal m (m.length + 1) op.nextOpIndex [] = _
      rw [h.ordered.linked _ (mem_of_lookup hlookup)]
      exact h.ordered.getOpsFromStartOp (hlen _) []
    | none =>
      cases hs : behind m oldIndex with
      | nil =>
        -- The greatest index is behind the old one, so there is an op.
        exfalso
        cases m with
        | nil => exact hend (h.max ▸ Nat.zero_le _)
        | cons y m =>
          obtain ⟨x, hx, hmax⟩ := mem_map.mp (h.le_max mem_cons_self).2
          have hnot := filter_eq_nil_iff.mp hs x hx
          rw [decide_eq_true_eq] at hnot
          omega
      | cons x s =>
        obtain ⟨hx, hold, hbehind⟩ := h.ordered.behind_cons hs
        have hfirst := h.ordered.firstOp hs (n := d.opsMapMaxIndex - oldIndex) (by have := (h.le_max hx).1; omega)
        simp only [hfirst, h.ordered.bytes_eq hx, mapM_cons]
        cases marshal x.2.com with
        | none => rfl
        | some b =>
          simp only [h.ordered.linked x hx]
          rw [h.ordered.getOpsFromStartOp (hlen _) [b], hbehind]
          cases s.mapM fun x => marshal x.2.com <;> rfl

end Data.Keeps

/-! ### Histories -/

section Histories

variable (useForClient : C → Bool)

variable {d : Data C} {log : List (ℕ × C)}

section

variable (h : d.Keeps marshal m log)

include h

theorem Data.Keeps.step {e : Event C} (he : e.Valid d.index) :
    ∃ d' m', d.step useForClient marshal e = some d' ∧ d'.index = e.index d.index ∧
      d'.Keeps marshal m' (log ++ e.commands useForClient) := by
  cases e with
  | apply cmd i ok =>
    have hadv := h.advance he.1.le he.2 (show ([].map Prod.fst).Pairwise (· < ·) from .nil)
      fun y hy => absurd hy not_mem_nil
    rw [append_nil] at hadv
    cases ok with
    | false =>
      refine ⟨_, m, rfl, rfl, ?_⟩
      rw [Event.commands, Bool.false_and, if_neg Bool.false_ne_true, append_nil]
      exact hadv
    | true =>
      rw [Event.commands, Bool.true_and]
      cases hc : useForClient cmd with
      | false =>
        refine ⟨{ d with index := i }, m, ?_, rfl, ?_⟩
        · simp only [Data.step, addCmdAsOpToOpMap, h.map, hc]
          rfl
        · rw [if_neg Bool.false_ne_true, append_nil]
          exact hadv
      | true =>
        exact h.addCmd he.1 he.2 hc
  | clear sqlNodes dataNodes =>
    rw [show Event.commands useForClient (.clear sqlNodes dataNodes) = [] from rfl, append_nil]
    exact h.clear _
  | updateCache =>
    rw [show Event.commands useForClient .updateCache = [] from rfl, append_nil]
    exact h.updateCache
  | restore missed i => exact ⟨_, m, rfl, rfl, h.advance he.1 he.2.1 he.2.2.1 he.2.2.2⟩

theorem Data.Keeps.run {es : List (Event C)} (hes : ValidFrom d.index es) :
    ∃ d' m', d.run useForClient marshal es = some d' ∧
      d'.Keeps marshal m' (log ++ es.flatMap (Event.commands useForClient)) := by
  induction es generalizing d m log with
  | nil =>
    refine ⟨d, m, rfl, ?_⟩
    rw [flatMap_nil, append_nil]
    exact h
  | cons e es ih =>
    obtain ⟨d1, m1, hstep, hindex, h1⟩ := h.step useForClient hes.1
    obtain ⟨d', m', hrun, h'⟩ := ih h1 (hindex ▸ hes.2)
    refine ⟨d', m', ?_, ?_⟩
    · simp only [Data.run, hstep]
      exact hrun
    · rwa [flatMap_cons, ← append_assoc]

theorem Data.Keeps.sub_behind (oldIndex : ℕ) :
    (coms (behind m oldIndex)).Sublist (log.filter fun x => oldIndex < x.1) := by
  have := h.sub.filter fun x => oldIndex < x.1
  rwa [coms, filter_map] at this

/-- The ops behind an index are all commands behind it exactly if every such command is kept. -/
theorem Data.Keeps.coms_filter_eq_iff (oldIndex : ℕ) : coms (behind m oldIndex) = log.filter (fun x => oldIndex < x.1) ↔
      ∀ x ∈ log, oldIndex < x.1 → x.1 ∈ m.map Prod.fst := by
  constructor
  · intro heq x hx hlt
    have hmem : x ∈ coms (behind m oldIndex) := by
      rw [heq]
      exact mem_filter.mpr ⟨hx, decide_eq_true hlt⟩
    obtain ⟨y, hy, rfl⟩ := mem_map.mp hmem
    exact mem_map_of_mem (mem_of_mem_filter hy)
  · intro hall
    have hnodup : (log.map Prod.fst).Nodup := h.log_ascending.imp Nat.ne_of_lt
    refine (h.sub_behind oldIndex).eq_of_length_le ((hnodup.of_map.filter _).length_le_of_subset fun x hx => ?_)
    obtain ⟨hx, hlt⟩ := mem_filter.mp hx
    obtain ⟨y, hy, hyx⟩ := mem_map.mp (hall x hx (of_decide_eq_true hlt))
    have hylog : (y.1, y.2.com) ∈ log := h.sub.subset (mem_map_of_mem hy)
    obtain rfl : (y.1, y.2.com) = x := inj_on_of_nodup_map hnodup hylog hx hyx
    exact mem_map_of_mem (mem_filter.mpr ⟨hy, hlt⟩)

end

/-- The answer sends the whole data, or exactly the commands behind the index. -/
def Complete (marshal : C → Option Bytes) (log : List (ℕ × C)) (oldIndex : ℕ) (a : List Bytes × GetOpsState) : Prop :=
  a = ([], .allClear) ∨ a.2 = .noClear ∧ a.1.map some = (log.filter fun x => oldIndex < x.1).map fun x => marshal x.2

/-- **Incremental sync**: for every history and every index, the store answers, and the answer is complete exactly if
the first op is behind the index, or a kept op behind the index cannot be encoded, or every command behind the index is
kept, so that none of them was cleared or came with a restored snapshot. -/
theorem History.getOps_iff (marshal : C → Option Bytes) (h : History C) (oldIndex : ℕ) :
    ∃ d m a, (newStore.run useForClient marshal h.events) = some d ∧ d.opsMap = some m ∧
      getOps marshal d oldIndex = some a ∧
      (Complete marshal (h.commands useForClient) oldIndex a ↔
        (oldIndex < d.opsMapMinIndex ∧ d.opsMapMinIndex ≠ maxUint64) ∨
          (∃ x ∈ m, oldIndex < x.1 ∧ marshal x.2.com = none) ∨
          ∀ x ∈ h.commands useForClient, oldIndex < x.1 → x.1 ∈ m.map Prod.fst) := by
  obtain ⟨d, m, hrun, hkeeps⟩ :=
    (show Data.Keeps marshal newStore _ _ from Data.Keeps.newStore).run useForClient h.valid
  change d.Keeps marshal m (h.commands useForClient) at hkeeps
  refine ⟨d, m, _, hrun, hkeeps.map, hkeeps.getOps oldIndex, ?_⟩
  by_cases hclear : oldIndex < d.opsMapMinIndex ∧ d.opsMapMinIndex ≠ maxUint64
  · rw [if_pos hclear]
    exact iff_of_true (.inl rfl) (.inl hclear)
  rw [if_neg hclear, or_iff_right hclear]
  by_cases hfail : ∃ x ∈ m, oldIndex < x.1 ∧ marshal x.2.com = none
  · obtain ⟨x, hx, hlt, hnone⟩ := hfail
    have hx' : x ∈ behind m oldIndex := mem_filter.mpr ⟨hx, decide_eq_true hlt⟩
    rw [mapM_eq_none.mpr ⟨x, hx', hnone⟩]
    exact iff_of_true (.inl rfl) (.inl ⟨x, hx, hlt, hnone⟩)
  rw [or_iff_right hfail, ← hkeeps.coms_filter_eq_iff]
  cases hm : (behind m oldIndex).mapM fun x => marshal x.2.com with
  | none =>
    obtain ⟨x, hx, hnone⟩ := mapM_eq_none.mp hm
    obtain ⟨hx, hlt⟩ := mem_filter.mp hx
    exact absurd ⟨x, hx, of_decide_eq_true hlt, hnone⟩ hfail
  | some bs =>
    have hbs := map_of_mapM hm
    have hcoms : (behind m oldIndex).map (fun x => marshal x.2.com) =
        (coms (behind m oldIndex)).map fun x => marshal x.2 := by
      rw [coms, map_map]
      rfl
    rw [hcoms] at hbs
    constructor
    · rintro (hempty | ⟨-, heq⟩)
      · cases hempty
      · -- The kept ones are some of the commands, and as many.
        refine (hkeeps.sub_behind oldIndex).eq_of_length ?_
        have hlen := congrArg length (hbs.trans heq)
        rwa [length_map, length_map] at hlen
    · intro heq
      refine .inr ⟨rfl, ?_⟩
      rw [heq] at hbs
      exact hbs.symm

end Histories

/-! ### A skipped command -/

/-- A store that starts from a snapshot with one command, at index 3. -/
def restored : History Unit := ⟨[.restore [(3, ())] 5], by unfold Event.Valid; decide, trivial⟩

/-- A node that is at index 2 is told that it has missed nothing. -/
theorem restoredCommand_skipped : ∃ d a, newStore.run (fun _ => true) (fun _ => some [1]) restored.events = some d ∧
    getOps (fun _ => some [1]) d 2 = some a ∧
    ¬ Complete (fun _ => some [1]) (restored.commands fun _ => true) 2 a := by
  refine ⟨_, ([], .noClear), rfl, rfl, ?_⟩
  rintro (h | h)
  · cases h
  · exact absurd h.2 (by decide)

end GeminiTS.Meta
