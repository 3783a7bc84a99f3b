import GeminiTS.Immutable.AggColumn

/-!
# LimitRows — does leaving out series keep the first rows

A query for all fields with a limit reads at most `limit + offset` series of a tag set with more of them
(`engine/iterators.go`). Which ones is decided by a first time of each series, taken from the metadata of its chunks
(`engine/tsm_merge_cursor.go`) and from the rows in memory, in a list that is cut to its length
(`engine/topn_linkedlist.go`). The times 0 and -1 stand for no time.

Which series `itrsInitWithLimit` keeps, and what of their rows is read, against the first `limit` rows of all series.

* `LimitQuery.keepsRows_iff`: the first rows are kept exactly if each row of a series that is left out has `limit` rows
  of the others that are not behind it.
* `not_keeps_beforeRange`: a chunk that begins before the time range is ranked too early.
-/

namespace GeminiTS.Limit

/-- The rows of a series in a file. -/
structure Chunk where
  times : List ℤ
  nonempty : times ≠ []
  ascending : times.Pairwise (· < ·)

/-- `MinMaxTime`. -/
def Chunk.minTime (c : Chunk) : ℤ := c.times.head c.nonempty

def Chunk.maxTime (c : Chunk) : ℤ := c.times.getLast c.nonempty

/-- A series: its chunks in the ordered and the unordered files, its rows in memory, and the first time in the cursor
object that it would get from the pool. -/
structure Series where
  orders : List (Option Chunk)
  outOfOrders : List (Option Chunk)
  mem : List ℤ
  pooled : ℤ
  orders_ascending : (orders.reduceOption.flatMap Chunk.times).Pairwise (· < ·)
  mem_ascending : mem.Pairwise (· < ·)

/-- A query on a tag set with more series than `limit`, which is the limit and the offset together. -/
structure LimitQuery where
  series : List Series
  tr : TimeRange
  ascending : Bool
  limit : ℕ
  lazyInit : Bool
  limit_pos : 0 < limit
  more : limit < series.length

def getFirstTime (orderFirstTime unorderFirstTime : ℤ) (ascending : Bool) : ℤ :=
  if orderFirstTime = 0 ∨ orderFirstTime = -1 then unorderFirstTime
  else if unorderFirstTime = 0 ∨ unorderFirstTime = -1 then orderFirstTime
  else if !ascending then if orderFirstTime > unorderFirstTime then orderFirstTime else unorderFirstTime
  else if orderFirstTime < unorderFirstTime then orderFirstTime else unorderFirstTime

section Locations

variable (q : LimitQuery)

/-- `Contains`, for a chunk: it overlaps the time range. -/
def contains (c : Chunk) : Bool := q.tr.overlaps c.minTime c.maxTime

/-- The first time of a chunk in the order of the query. -/
def firstTime (c : Chunk) : ℤ := if q.ascending then c.minTime else c.maxTime

/-- The loop of `AddLocationsWithLimit`, over the files in the order of the query. -/
def limitLoop : List (Option Chunk) → ℕ → Option ℤ → List Chunk × Option ℤ
  | [], _, first => ([], first)
  | none :: files, orderRow, first => limitLoop files orderRow first
  | some c :: files, orderRow, first =>
    if contains q c then
      let first := first.or (some (firstTime q c))
      let orderRow := if q.tr.min ≤ c.minTime ∧ c.maxTime ≤ q.tr.max then orderRow + c.times.length else orderRow
      if orderRow ≥ q.limit then ([c], first)
      else (c :: (limitLoop files orderRow first).1, (limitLoop files orderRow first).2)
    else limitLoop files orderRow first

/-- The files in the order of the query. -/
def inOrder (files : List (Option Chunk)) : List (Option Chunk) := if q.ascending then files else files.reverse

def addLocationsWithLimit (files : List (Option Chunk)) : List Chunk × ℤ :=
  if files.length = 0 then ([], -1)
  else ((limitLoop q (inOrder q files) 0 none).1, (limitLoop q (inOrder q files) 0 none).2.getD 0)

/-- A turn of the loop of `AddLocationsWithFirstTime`. -/
def addFirstTime (acc : List Chunk × ℤ) : Option Chunk → List Chunk × ℤ
  | none => acc
  | some c => if contains q c then (acc.1 ++ [c], getFirstTime (firstTime q c) acc.2 q.ascending) else acc

def addLocationsWithFirstTime (files : List (Option Chunk)) : List Chunk × ℤ := files.foldl (addFirstTime q) ([], -1)

/-- A `tsmMergeCursor`. -/
structure TsmCursor where
  locations : List Chunk
  outOfOrderLocations : List Chunk
  limitFirstTime : ℤ

/-- `AddLoc`. -/
def addLoc (s : Series) : TsmCursor where
  locations := (addLocationsWithLimit q s.orders).1
  outOfOrderLocations := (addLocationsWithFirstTime q s.outOfOrders).1
  limitFirstTime :=
    getFirstTime (addLocationsWithLimit q s.orders).2 (addLocationsWithFirstTime q s.outOfOrders).2 q.ascending

def newTsmMergeCursor (s : Series) : Option TsmCursor :=
  if (addLoc q s).locations.length = 0 ∧ (addLoc q s).outOfOrderLocations.length = 0 then none else some (addLoc q s)

end Locations

/-! ### The cursors -/

/-- A `seriesCursor`: the files and the rows in memory it reads. -/
structure Cursor where
  limitFirstTime : ℤ
  locations : List Chunk
  outOfOrderLocations : List Chunk
  mem : List ℤ

section Cursors

variable (q : LimitQuery)

/-- The rows in memory, in the order of the query. -/
def getMemTableRecord (s : Series) : List ℤ :=
  let rows := s.mem.filter q.tr.has
  if q.ascending then rows else rows.reverse

/-- `SetFirstLimitTime`; the cursor of the files is only absent if there are rows in memory. -/
def setFirstLimitTime (memTableRecord : List ℤ) (tsmCursor : Option TsmCursor) : ℤ :=
  match memTableRecord, tsmCursor with
  | [], none => 0
  | [], some c => c.limitFirstTime
  | t :: _, none => t
  | t :: _, some c =>
    if c.limitFirstTime = 0 ∨ c.limitFirstTime = -1 then t
    else if t < c.limitFirstTime ∧ q.ascending = true then t
    else if t > c.limitFirstTime ∧ q.ascending = false then t
    else c.limitFirstTime

def newSeriesCursor (s : Series) : Option Cursor :=
  let mem := getMemTableRecord q s
  match newTsmMergeCursor q s with
  | some c => some ⟨setFirstLimitTime q mem (some c), c.locations, c.outOfOrderLocations, mem⟩
  | none => if mem.length > 0 then some ⟨setFirstLimitTime q mem none, [], [], mem⟩ else none

/-- The files and the rows in memory are looked for when the cursor is read. -/
def newSeriesCursorLazyInit (s : Series) : Cursor :=
  ⟨s.pooled, (addLoc q s).locations, (addLoc q s).outOfOrderLocations, getMemTableRecord q s⟩

/-- The cursor of a series, if it gets one. -/
def seriesCursor (s : Series) : Option Cursor :=
  if q.lazyInit then some (newSeriesCursorLazyInit q s) else newSeriesCursor q s

end Cursors

/-! ### The list of series that are kept -/

section TopN

variable (q : LimitQuery)

/-- The new cursor does not come before the other one in the order of the query. -/
def notBefore (cursor node : Cursor) : Bool := (cursor.limitFirstTime ≥ node.limitFirstTime && q.ascending) ||
    (cursor.limitFirstTime ≤ node.limitFirstTime && !q.ascending)

/-- A node more, from the head of the list on, which has the latest first time. -/
def insertNode (cursor : Cursor) : List Cursor → List Cursor
  | [] => [cursor]
  | node :: nodes => if notBefore q cursor node then cursor :: node :: nodes else node :: insertNode cursor nodes

/-- `Insert`. -/
def insert (nodes : List Cursor) (cursor : Cursor) : List Cursor :=
  match nodes with
  | [] => [cursor]
  | head :: _ =>
    if nodes.length < q.limit then insertNode q cursor nodes
    else if notBefore q cursor head then nodes
    else (insertNode q cursor nodes).tail

/-- The cursors `itrsInitWithLimit` keeps. -/
def itrsInitWithLimit : List Cursor := (q.series.filterMap (seriesCursor q)).foldl (insert q) []

end TopN

/-! ### Rows -/

section Rows

variable (q : LimitQuery)

/-- The times of the rows in the time range; rows of the same time are one row. -/
def rowsIn (times : List ℤ) : List ℤ := (times.filter q.tr.has).dedup

/-- The rows of a series. -/
def Series.rows (s : Series) : List ℤ :=
  rowsIn q (s.orders.reduceOption.flatMap Chunk.times ++ s.outOfOrders.reduceOption.flatMap Chunk.times ++ s.mem)

/-- The rows a cursor reads. -/
def Cursor.rows (c : Cursor) : List ℤ :=
  rowsIn q (c.locations.flatMap Chunk.times ++ c.outOfOrderLocations.flatMap Chunk.times ++ c.mem)

end Rows

open Lib List

/-! ### The order of a query -/

/-- Times in ascending order of the query. -/
def orderKey (ascending : Bool) (t : ℤ) : ℤ := if ascending then t else -t

theorem orderKey_injective (ascending : Bool) : Function.Injective (orderKey ascending) := by
  intro a b h
  cases ascending with
  | true => exact h
  | false => exact Int.neg_inj.mp h

/-- The first rows of the query. -/
def LimitQuery.firstRows (q : LimitQuery) (times : List ℤ) : List ℤ :=
  (stableSort (orderKey q.ascending) times).take q.limit

/-! ### The cursors that are kept -/

section TopN

variable (q : LimitQuery)

/-- Cursors by their first time, in the order of the query. -/
def cursorKey (c : Cursor) : ℤ := orderKey q.ascending c.limitFirstTime

theorem notBefore_iff (c node : Cursor) : notBefore q c node = true ↔ cursorKey q node ≤ cursorKey q c := by
  rw [notBefore, cursorKey, cursorKey, orderKey, orderKey]
  cases q.ascending with
  | true | false => simp

theorem insertNode_eq {nodes : List Cursor} (hnodes : nodes.Pairwise fun a b => cursorKey q b ≤ cursorKey q a)
    (c : Cursor) : insertNode q c nodes = nodes.filter (fun n => cursorKey q c < cursorKey q n) ++
      c :: nodes.filter fun n => cursorKey q n ≤ cursorKey q c := by
  induction nodes with
  | nil => rfl
  | cons n nodes ih =>
    rw [insertNode]
    split_ifs with hn <;> rw [notBefore_iff] at hn
    · have hbehind : ∀ m ∈ n :: nodes, cursorKey q m ≤ cursorKey q c := by
        intro m hm
        rcases mem_cons.mp hm with rfl | hm
        · exact hn
        · exact (rel_of_pairwise_cons hnodes hm).trans hn
      have hnone : (n :: nodes).filter (fun n => cursorKey q c < cursorKey q n) = [] :=
        filter_eq_nil_iff.mpr fun m hm => by simpa using hbehind m hm
      have hall : (n :: nodes).filter (fun n => cursorKey q n ≤ cursorKey q c) = n :: nodes :=
        filter_eq_self.mpr fun m hm => by simpa using hbehind m hm
      rw [hnone, hall]
      rfl
    · rw [filter_cons_of_pos (by simpa using hn), filter_cons_of_neg (by simpa using hn), ih hnodes.tail]
      rfl

section

variable {l : List Cursor} (hl : l.Pairwise fun a b => cursorKey q a ≤ cursorKey q b) (c : Cursor)

include hl

theorem insertNode_reverse : insertNode q c l.reverse = (insertAfter (cursorKey q) c l).reverse := by
  rw [insertNode_eq q (pairwise_reverse.mpr hl), insertAfter_eq hl]
  simp

/-- **One cursor more.** -/
theorem insert_eq : insert q (l.take q.limit).reverse c = ((insertAfter (cursorKey q) c l).take q.limit).reverse := by
  have hpos := q.limit_pos
  have htake : (l.take q.limit).Pairwise fun a b => cursorKey q a ≤ cursorKey q b := hl.sublist (take_sublist ..)
  have hlen : (l.take q.limit).length ≤ q.limit := by simp
  rw [take_insertAfter]
  generalize l.take q.limit = l at hlen htake
  have hinsert := insertNode_reverse q htake c
  have hlength := length_insertAfter (cursorKey q) c l
  cases hrev : l.reverse with
  | nil =>
    rw [reverse_eq_nil_iff.mp hrev]
    rw [take_of_length_le hpos]
    rfl
  | cons head nodes =>
    rw [hrev] at hinsert
    have hlist : (head :: nodes).length = l.length := by rw [← hrev, length_reverse]
    rw [insert]
    split_ifs with hshort hnot
    · rw [hinsert, take_of_length_le (by omega)]
    · -- the new cursor is behind all of them
      have hfull : l.length = q.limit := by omega
      rw [notBefore_iff] at hnot
      have hsorted : (head :: nodes).Pairwise fun a b => cursorKey q b ≤ cursorKey q a :=
        hrev ▸ pairwise_reverse.mpr htake
      have hall : ∀ n ∈ l, cursorKey q n ≤ cursorKey q c := by
        intro n hn
        rcases mem_cons.mp (hrev ▸ mem_reverse.mpr hn) with rfl | hn
        · exact hnot
        · exact (rel_of_pairwise_cons hsorted hn).trans hnot
      rw [insertAfter_eq htake, filter_eq_self.mpr fun n hn => by simpa using hall n hn,
        take_append_of_le_length hfull.ge, ← hfull, take_length, hrev]
    · have hfull : l.length = q.limit := by omega
      rw [hinsert, tail_reverse, dropLast_eq_take, hlength, hfull, Nat.add_sub_cancel]

end

theorem foldl_insert (l : List Cursor) :
    l.foldl (insert q) [] = ((stableSort (cursorKey q) l).take q.limit).reverse := by
  induction l using reverseRecOn with
  | nil => simp [stableSort]
  | append_singleton l c ih =>
    rw [foldl_append, foldl_cons, foldl_nil, ih, insert_eq q (pairwise_stableSort _ l), stableSort_concat]

end TopN

/-! ### The first time of a series -/

/-- Times that do not stand for no time. -/
def known (t : ℤ) : Bool := !(t = 0 ∨ t = -1)

/-- The first of times in the order of a query. -/
def soonest (ascending : Bool) (times : List ℤ) : Option ℤ := if ascending then times.min? else times.max?

section Rank

variable (q : LimitQuery)

/-- The chunks that overlap the time range. -/
def overlapping (files : List (Option Chunk)) : List Chunk := files.reduceOption.filter (contains q)

/-- What the metadata gives for the first time: the start of each unordered chunk, and of the first ordered chunk, that
overlaps the time range; 0 and -1 do not count. -/
def candidates (s : Series) : List ℤ := ((overlapping q s.outOfOrders).map (firstTime q) ++
    ((overlapping q (inOrder q s.orders)).head?.map (firstTime q)).toList).filter known

/-- The time a series is ranked by. -/
def rank (s : Series) : ℤ :=
  if q.lazyInit then s.pooled
  else (soonest q.ascending (candidates q s ++ (getMemTableRecord q s).head?.toList)).getD (-1)

/-- The series gets a cursor. -/
def live (s : Series) : Prop :=
  q.lazyInit = true ∨ overlapping q s.orders ≠ [] ∨ overlapping q s.outOfOrders ≠ [] ∨ getMemTableRecord q s ≠ []

theorem soonest_concat (ascending : Bool) (times : List ℤ) (t : ℤ) : soonest ascending (times ++ [t]) =
      some ((soonest ascending times).elim t fun m => if ascending then min m t else max m t) := by
  cases times with
  | nil => cases ascending <;> rfl
  | cons a times =>
    cases ascending with
    | true =>
      show some ((times ++ [t]).foldl min a) = some (min (times.foldl min a) t)
      rw [foldl_append]
      rfl
    | false =>
      show some ((times ++ [t]).foldl max a) = some (max (times.foldl max a) t)
      rw [foldl_append]
      rfl

theorem soonest_mem {ascending : Bool} {times : List ℤ} {t : ℤ} (h : soonest ascending times = some t) : t ∈ times := by
  cases ascending with
  | true => exact min?_mem h
  | false => exact max?_mem h

theorem soonest_known_concat {ascending : Bool} {times : List ℤ} (htimes : ∀ m ∈ times, known m = true) (t : ℤ) :
    (soonest ascending (times ++ [t])).getD (-1) =
      let m := (soonest ascending times).getD (-1)
      if m = 0 ∨ m = -1 then t else if ascending then min m t else max m t := by
  rw [soonest_concat]
  cases hs : soonest ascending times with
  | none => rfl
  | some m =>
    have hm : ¬ (m = 0 ∨ m = -1) := by simpa [known] using htimes m (soonest_mem hs)
    exact (if_neg hm).symm

theorem getFirstTime_soonest (times : List ℤ) (t : ℤ) :
    getFirstTime t ((soonest q.ascending (times.filter known)).getD (-1)) q.ascending =
      (soonest q.ascending ((times ++ [t]).filter known)).getD (-1) := by
  rw [filter_append]
  by_cases ht : t = 0 ∨ t = -1
  · have hnot : [t].filter known = [] := by simp [known, ht]
    rw [getFirstTime, if_pos ht, hnot, append_nil]
  · have hone : [t].filter known = [t] := by simp [known, ht]
    rw [getFirstTime, hone, soonest_known_concat fun m hm => (mem_filter.mp hm).2]
    cases q.ascending with
    | true => simp only [Bool.not_true, Bool.false_eq_true, if_false]; split_ifs <;> omega
    | false => simp only [Bool.not_false, Bool.false_eq_true, if_false]; split_ifs <;> omega

@[simp] theorem overlapping_nil : overlapping q [] = [] := rfl

theorem overlapping_cons_some (c : Chunk) (files : List (Option Chunk)) :
    overlapping q (some c :: files) = if contains q c then c :: overlapping q files else overlapping q files := by
  change (c :: files.reduceOption).filter (contains q) = _
  rw [filter_cons]
  rfl

variable (files : List (Option Chunk))

/-- The rows that are counted, those of chunks inside the time range. -/
def counted (chunks : List Chunk) : ℕ :=
  (chunks.map fun c => if q.tr.min ≤ c.minTime ∧ c.maxTime ≤ q.tr.max then c.times.length else 0).sum

/-- **The loop** takes the first chunks that overlap the time range, and not all only if it counted enough rows. -/
theorem limitLoop_spec (orderRow : ℕ) (first : Option ℤ) : ∃ n, limitLoop q files orderRow first =
      ((overlapping q files).take (n + 1), first.or ((overlapping q files).head?.map (firstTime q))) ∧
    (n + 1 < (overlapping q files).length → q.limit ≤ orderRow + counted q ((overlapping q files).take (n + 1))) := by
  fun_induction limitLoop q files orderRow first with
  | case1 orderRow first => exact ⟨0, by simp, fun h => absurd h (Nat.not_lt_zero _)⟩
  | case2 files orderRow first ih => exact ih
  | case3 c files orderRow first hc first' orderRow' hfull =>
    rw [overlapping_cons_some, if_pos hc]
    refine ⟨0, rfl, fun _ => hfull.trans ?_⟩
    simp only [orderRow', counted, take_succ_cons, map_cons, sum_cons]
    split_ifs <;> omega
  | case4 c files orderRow first hc first' orderRow' hfull ih =>
    obtain ⟨n, hrun, hmany⟩ := ih
    rw [overlapping_cons_some, if_pos hc, hrun]
    refine ⟨n + 1, by cases first <;> rfl, fun h => (hmany (Nat.lt_of_succ_lt_succ h)).trans ?_⟩
    simp only [orderRow', counted, take_succ_cons, map_cons, sum_cons]
    split_ifs <;> omega
  | case5 c files orderRow first hc ih => rwa [overlapping_cons_some, if_neg hc]

theorem foldl_addFirstTime (locs : List Chunk) :
    files.foldl (addFirstTime q) (locs, (soonest q.ascending ((locs.map (firstTime q)).filter known)).getD (-1)) =
      (locs ++ overlapping q files,
        (soonest q.ascending (((locs ++ overlapping q files).map (firstTime q)).filter known)).getD (-1)) := by
  induction files generalizing locs with
  | nil => simp
  | cons f files ih =>
    cases f with
    | none => exact ih locs
    | some c =>
      rw [foldl_cons, addFirstTime, overlapping_cons_some]
      split_ifs with hc
      · have hstep := getFirstTime_soonest q (locs.map (firstTime q)) (firstTime q c)
        rw [← map_singleton, ← map_append] at hstep
        simp only [hstep, ih, append_assoc, singleton_append]
      · exact ih locs

theorem addLocationsWithFirstTime_eq : addLocationsWithFirstTime q files =
      (overlapping q files,
        (soonest q.ascending (((overlapping q files).map (firstTime q)).filter known)).getD (-1)) := by
  have h := foldl_addFirstTime q files []
  have hnone : (soonest q.ascending ((map (firstTime q) []).filter known)).getD (-1) = -1 := by
    cases hq : q.ascending <;> rfl
  rw [hnone] at h
  exact h

theorem limitFirstTime_addLoc (s : Series) :
    (addLoc q s).limitFirstTime = (soonest q.ascending (candidates q s)).getD (-1) := by
  obtain ⟨n, hrun, -⟩ := limitLoop_spec q (inOrder q s.orders) 0 none
  rw [addLoc, addLocationsWithFirstTime_eq, candidates]
  cases hhead : (overlapping q (inOrder q s.orders)).head? with
  | none =>
    have hnone : (addLocationsWithLimit q s.orders).2 = 0 ∨ (addLocationsWithLimit q s.orders).2 = -1 := by
      rw [addLocationsWithLimit]
      split_ifs
      · exact .inr rfl
      · left
        rw [hrun, hhead]
        rfl
    simp [getFirstTime, hnone]
  | some c =>
    have hne : ¬ s.orders.length = 0 := by
      intro hlen
      rw [length_eq_zero_iff.mp hlen] at hhead
      cases hq : q.ascending <;> simp [inOrder] at hhead
    have hfirst : (addLocationsWithLimit q s.orders).2 = firstTime q c := by
      rw [addLocationsWithLimit, if_neg hne, hrun, hhead]
      rfl
    rw [hfirst, getFirstTime_soonest]
    rfl

theorem setFirstLimitTime_eq (s : Series) (mem : List ℤ) : setFirstLimitTime q mem (some (addLoc q s)) =
      (soonest q.ascending (candidates q s ++ mem.head?.toList)).getD (-1) := by
  cases mem with
  | nil => rw [setFirstLimitTime, limitFirstTime_addLoc]; simp
  | cons t mem =>
    have hknown : ∀ m ∈ candidates q s, known m = true := fun m hm => (mem_filter.mp hm).2
    rw [setFirstLimitTime, limitFirstTime_addLoc, head?_cons, Option.toList_some, soonest_known_concat hknown]
    cases q.ascending with
    | true => simp only [and_true, Bool.true_eq_false, and_false, if_false]; split_ifs <;> omega
    | false => simp only [and_true, Bool.false_eq_true, and_false, if_false]; split_ifs <;> omega

end Rank

/-! ### The cursor of a series -/

section Cursor

variable (q : LimitQuery)

instance : DecidablePred (live q) := fun s =>
  inferInstanceAs (Decidable (q.lazyInit = true ∨ overlapping q s.orders ≠ [] ∨ overlapping q s.outOfOrders ≠ [] ∨
    getMemTableRecord q s ≠ []))

/-- The cursor of a series that gets one. -/
def cursor (s : Series) : Cursor :=
  ⟨rank q s, (addLoc q s).locations, (addLoc q s).outOfOrderLocations, getMemTableRecord q s⟩

theorem reduceOption_inOrder (files : List (Option Chunk)) :
    (inOrder q files).reduceOption = if q.ascending then files.reduceOption else files.reduceOption.reverse := by
  rw [inOrder]
  split_ifs
  · rfl
  · exact filterMap_reverse

variable {files : List (Option Chunk)} (s : Series)

theorem mem_overlapping_inOrder {c : Chunk} : c ∈ overlapping q (inOrder q files) ↔ c ∈ overlapping q files := by
  rw [overlapping, overlapping, reduceOption_inOrder]
  split_ifs <;> simp

theorem overlapping_inOrder_eq_nil : overlapping q (inOrder q files) = [] ↔ overlapping q files = [] := by
  simp only [eq_nil_iff_forall_not_mem, mem_overlapping_inOrder]

theorem locations_spec : ∃ n, (addLoc q s).locations = (overlapping q (inOrder q s.orders)).take (n + 1) ∧
    (n + 1 < (overlapping q (inOrder q s.orders)).length → q.limit ≤ counted q (addLoc q s).locations) := by
  obtain ⟨n, hrun, hmany⟩ := limitLoop_spec q (inOrder q s.orders) 0 none
  have hlocs : (addLoc q s).locations = (overlapping q (inOrder q s.orders)).take (n + 1) := by
    rw [addLoc, addLocationsWithLimit, hrun]
    split_ifs with hlen
    · rw [length_eq_zero_iff.mp hlen]
      cases hq : q.ascending <;> simp [inOrder]
    · rfl
  rw [hlocs]
  exact ⟨n, rfl, fun h => (hmany h).trans_eq (zero_add _)⟩

theorem locations_eq_nil : (addLoc q s).locations = [] ↔ overlapping q s.orders = [] := by
  obtain ⟨n, hlocs, -⟩ := locations_spec q s
  rw [hlocs, ← overlapping_inOrder_eq_nil]
  simp

theorem outOfOrderLocations_eq : (addLoc q s).outOfOrderLocations = overlapping q s.outOfOrders := by
  rw [addLoc, addLocationsWithFirstTime_eq]

/-- **The cursors**: series with nothing in the time range get none, unless it is not looked for. -/
theorem seriesCursor_eq : seriesCursor q s = if live q s then some (cursor q s) else none := by
  cases hlazy : q.lazyInit with
  | true => simp [seriesCursor, hlazy, live, cursor, newSeriesCursorLazyInit, rank]
  | false =>
    have hrank : setFirstLimitTime q (getMemTableRecord q s) (some (addLoc q s)) = rank q s := by
      rw [setFirstLimitTime_eq, rank, hlazy]
      rfl
    have hempty : ((addLoc q s).locations.length = 0 ∧ (addLoc q s).outOfOrderLocations.length = 0) ↔
        overlapping q s.orders = [] ∧ overlapping q s.outOfOrders = [] := by
      rw [length_eq_zero_iff, length_eq_zero_iff, locations_eq_nil, outOfOrderLocations_eq]
    simp only [seriesCursor, hlazy, newSeriesCursor, newTsmMergeCursor, Bool.false_eq_true, if_false]
    by_cases hfiles : overlapping q s.orders = [] ∧ overlapping q s.outOfOrders = []
    · have hlocs := hempty.mpr hfiles
      have hcandidates : candidates q s = [] := by
        rw [candidates, hfiles.2, overlapping_inOrder_eq_nil q |>.mpr hfiles.1]
        rfl
      rw [setFirstLimitTime_eq, hcandidates] at hrank
      rw [if_pos hlocs]
      cases hmem : getMemTableRecord q s with
      | nil => simp [live, hlazy, hfiles, hmem]
      | cons t mem =>
        have hlive : live q s := by simp [live, hmem]
        have htime : rank q s = t := by
          rw [← hrank, hmem]
          cases q.ascending <;> rfl
        simp [hlive, cursor, setFirstLimitTime, htime, hmem, length_eq_zero_iff.mp hlocs.1,
          length_eq_zero_iff.mp hlocs.2]
    · have hlive : live q s := by
        tauto
      rw [if_neg (mt hempty.mp hfiles), if_pos hlive]
      simp only [cursor, hrank]

end Cursor

/-! ### The files that are read -/

section Cut

variable (q : LimitQuery)

/-- A time comes strictly before another one in the order of the query. -/
def Before (x y : ℤ) : Prop := orderKey q.ascending x < orderKey q.ascending y

variable {t : ℤ} {s : Series}

theorem chunk_bounds (c : Chunk) (ht : t ∈ c.times) : c.minTime ≤ t ∧ t ≤ c.maxTime :=
  ⟨head?_le c.ascending (head?_eq_some_head c.nonempty) ht,
    le_getLast? c.ascending (getLast?_eq_some_getLast c.nonempty) ht⟩

theorem contains_of_mem {c : Chunk} (ht : t ∈ c.times) (hin : q.tr.has t = true) : contains q c = true := by
  have := chunk_bounds c ht
  simp only [TimeRange.has, Bool.and_eq_true, decide_eq_true_eq] at hin
  simp only [contains, TimeRange.overlaps, Bool.and_eq_true, decide_eq_true_eq]
  omega

theorem locations_sublist (s : Series) : (addLoc q s).locations.Sublist (overlapping q (inOrder q s.orders)) := by
  obtain ⟨n, hlocs, -⟩ := locations_spec q s
  rw [hlocs]
  exact take_sublist ..

/-- Rows of the time range that are not behind a time. -/
def upTo (t : ℤ) (times : List ℤ) : List ℤ :=
  times.filter fun u => q.tr.has u && decide (orderKey q.ascending u ≤ orderKey q.ascending t)

theorem upTo_append (t : ℤ) (a b : List ℤ) : upTo q t (a ++ b) = upTo q t a ++ upTo q t b := filter_append ..

/-- A chunk whose rows are counted has all of them in the time range. -/
theorem counted_le {chunks : List Chunk} (hbefore : ∀ d ∈ chunks, ∀ x ∈ d.times, Before q x t) :
    counted q chunks ≤ (upTo q t (chunks.flatMap Chunk.times)).length := by
  induction chunks with
  | nil => exact Nat.zero_le _
  | cons d chunks ih =>
    rw [flatMap_cons, upTo_append, length_append, counted, map_cons]
    refine Nat.add_le_add ?_ (ih fun e he => hbefore e (mem_cons_of_mem d he))
    split_ifs with hin
    · have hall : upTo q t d.times = d.times := by
        refine filter_eq_self.mpr fun x hx => ?_
        have hbounds := chunk_bounds d hx
        have hlt : orderKey q.ascending x < orderKey q.ascending t := hbefore d mem_cons_self x hx
        simp only [TimeRange.has, Bool.and_eq_true, decide_eq_true_eq]
        omega
      rw [hall]
    · exact Nat.zero_le _

theorem overlapping_before (s : Series) :
    (overlapping q (inOrder q s.orders)).Pairwise fun c d => ∀ x ∈ c.times, ∀ y ∈ d.times, Before q x y := by
  have hasc := (pairwise_flatMap.mp s.orders_ascending).2
  refine List.Pairwise.filter _ ?_
  rw [reduceOption_inOrder]
  unfold Before orderKey
  cases q.ascending with
  | true => exact hasc
  | false =>
    refine pairwise_reverse.mpr (hasc.imp fun {c d} h x hx y hy => ?_)
    exact Int.neg_lt_neg (h y hy x hx)

/-- **Files are left out when enough rows come before theirs.** -/
theorem locations_cut {c : Chunk} (hc : c ∈ overlapping q s.orders) (ht : t ∈ c.times) :
    c ∈ (addLoc q s).locations ∨ q.limit ≤ (upTo q t ((addLoc q s).locations.flatMap Chunk.times)).length := by
  obtain ⟨n, hlocs, hmany⟩ := locations_spec q s
  have hordered := overlapping_before q s
  rw [← mem_overlapping_inOrder, ← take_append_drop (n + 1) (overlapping q _), ← hlocs] at hc
  rw [← take_append_drop (n + 1) (overlapping q _), ← hlocs, pairwise_append] at hordered
  refine (mem_append.mp hc).imp_right fun hc => ?_
  have hrest := length_pos_of_mem hc
  rw [length_drop] at hrest
  exact (hmany (by omega)).trans (counted_le q fun d hd x hx => hordered.2.2 d hd c hc x hx t ht)

theorem mem_rowsIn {times : List ℤ} : t ∈ rowsIn q times ↔ t ∈ times ∧ q.tr.has t = true := by
  rw [rowsIn, mem_dedup, mem_filter]

theorem mem_mem : t ∈ getMemTableRecord q s ↔ t ∈ s.mem ∧ q.tr.has t = true := by
  rw [getMemTableRecord]
  split_ifs <;> simp

theorem mem_flatMap_overlapping {files : List (Option Chunk)} (hin : q.tr.has t = true) :
    t ∈ (overlapping q files).flatMap Chunk.times ↔ t ∈ files.reduceOption.flatMap Chunk.times := by
  simp only [mem_flatMap, overlapping, mem_filter]
  exact exists_congr fun c => ⟨fun h => ⟨h.1.1, h.2⟩, fun h => ⟨⟨h.1, contains_of_mem q h.2 hin⟩, h.2⟩⟩

/-- The rows of a series, from the chunks that overlap the time range. -/
theorem mem_rows : t ∈ s.rows q ↔ (t ∈ (overlapping q s.orders).flatMap Chunk.times ∨
      t ∈ (overlapping q s.outOfOrders).flatMap Chunk.times ∨ t ∈ getMemTableRecord q s) ∧ q.tr.has t = true := by
  rw [Series.rows, mem_rowsIn, mem_append, mem_append, or_assoc]
  refine and_congr_left fun hin => ?_
  rw [mem_flatMap_overlapping q hin, mem_flatMap_overlapping q hin, mem_mem, and_iff_left hin]

theorem mem_rows_cursor : t ∈ (cursor q s).rows q ↔ (t ∈ (addLoc q s).locations.flatMap Chunk.times ∨
      t ∈ (overlapping q s.outOfOrders).flatMap Chunk.times ∨ t ∈ getMemTableRecord q s) ∧ q.tr.has t = true := by
  rw [Cursor.rows, mem_rowsIn, mem_append, mem_append, or_assoc, cursor, outOfOrderLocations_eq]

theorem rows_cursor_subset : (cursor q s).rows q ⊆ s.rows q := by
  intro t ht
  obtain ⟨ht, hin⟩ := (mem_rows_cursor q).mp ht
  refine (mem_rows q).mpr ⟨ht.imp_left fun h => ?_, hin⟩
  obtain ⟨c, hc, htc⟩ := mem_flatMap.mp h
  exact mem_flatMap.mpr ⟨c, (mem_overlapping_inOrder q).mp ((locations_sublist q s).subset hc), htc⟩

theorem nodup_locations (s : Series) : ((addLoc q s).locations.flatMap Chunk.times).Nodup := by
  have hbefore := (overlapping_before q s).sublist (locations_sublist q s)
  refine nodup_flatMap.mpr ⟨fun c _ => c.ascending.imp Int.ne_of_lt, hbefore.imp fun {c d} h => ?_⟩
  intro t hc hd
  exact absurd (h t hc t hd) (Int.lt_irrefl _)

/-- **A row that is not read has enough rows before it.** -/
theorem limit_le_of_not_read (ht : t ∈ s.rows q) (hnot : t ∉ (cursor q s).rows q) :
    q.limit ≤ (((cursor q s).rows q).filter fun u => orderKey q.ascending u ≤ orderKey q.ascending t).length := by
  obtain ⟨ht, hin⟩ := (mem_rows q).mp ht
  rw [mem_rows_cursor] at hnot
  have hordered : t ∈ (overlapping q s.orders).flatMap Chunk.times := by tauto
  obtain ⟨c, hc, htc⟩ := mem_flatMap.mp hordered
  rcases locations_cut q hc htc with hread | hmany
  · exact absurd ⟨.inl (mem_flatMap.mpr ⟨c, hread, htc⟩), hin⟩ hnot
  · refine hmany.trans (List.Subperm.length_le ?_)
    refine subperm_of_subset ((nodup_locations q s).filter _) fun u hu => ?_
    obtain ⟨hu, hcond⟩ := mem_filter.mp hu
    rw [Bool.and_eq_true] at hcond
    exact mem_filter.mpr ⟨(mem_rows_cursor q).mpr ⟨.inl hu, hcond.1⟩, hcond.2⟩

end Cut

/-! ### The first rows -/

section FirstRows

variable (q : LimitQuery)

/-- The series with a cursor, by their rank. -/
def ranked : List Series := stableSort (fun s => orderKey q.ascending (rank q s)) (q.series.filter fun s => live q s)

/-- Leaving out series keeps the times of the first rows. -/
def LimitQuery.Keeps : Prop :=
  q.firstRows ((itrsInitWithLimit q).flatMap (Cursor.rows q)) = q.firstRows (q.series.flatMap (Series.rows q))

theorem itrsInitWithLimit_eq : itrsInitWithLimit q = (((ranked q).take q.limit).map (cursor q)).reverse := by
  have hcursors : q.series.filterMap (seriesCursor q) = (q.series.filter fun s => live q s).map (cursor q) := by
    rw [← filterMap_eq_map, filterMap_filter]
    refine filterMap_congr fun s _ => ?_
    rw [seriesCursor_eq]
    by_cases h : live q s <;> simp
  have hsort : stableSort (cursorKey q) ((q.series.filter fun s => live q s).map (cursor q)) =
      (ranked q).map (cursor q) := stableSort_map ..
  rw [itrsInitWithLimit, foldl_insert, hcursors, hsort, map_take]

variable {s : Series} (l : List Series)

theorem rows_eq_nil (h : ¬ live q s) : s.rows q = [] := by
  rw [live, not_or, not_or, not_or, not_not, not_not, not_not] at h
  rw [eq_nil_iff_forall_not_mem]
  intro t ht
  have ht := ((mem_rows q).mp ht).1
  rw [h.2.1, h.2.2.1, h.2.2.2] at ht
  simp at ht

theorem flatMap_rows_perm : (q.series.flatMap (Series.rows q)).Perm ((ranked q).flatMap (Series.rows q)) := by
  have hlive : q.series.flatMap (Series.rows q) = (q.series.filter fun s => live q s).flatMap (Series.rows q) := by
    induction q.series with
    | nil => rfl
    | cons s l ih =>
      rw [flatMap_cons, filter_cons, ih]
      split_ifs with h
      · rfl
      · rw [rows_eq_nil q (by simpa using h), nil_append]
  rw [hlive]
  exact ((stableSort_perm _ _).symm).flatMap_right _

/-- The rows of a series that its cursor does not read. -/
def unread (s : Series) : List ℤ := (s.rows q).filter fun t => t ∉ (cursor q s).rows q

theorem rows_perm (s : Series) : (s.rows q).Perm ((cursor q s).rows q ++ unread q s) := by
  have hnodup : ∀ times, (rowsIn q times).Nodup := fun times => nodup_dedup _
  refine (perm_ext_iff_of_nodup (hnodup _) ?_).mpr fun t => ?_
  · refine nodup_append'.mpr ⟨hnodup _, (hnodup _).filter _, fun t ht hu => ?_⟩
    exact absurd ht (of_decide_eq_true (mem_filter.mp hu).2)
  · rw [mem_append, unread, mem_filter, decide_eq_true_eq]
    constructor
    · intro ht
      by_cases hread : t ∈ (cursor q s).rows q
      · exact .inl hread
      · exact .inr ⟨ht, hread⟩
    · rintro (hread | ⟨ht, -⟩)
      · exact rows_cursor_subset q hread
      · exact ht

theorem flatMap_rows_read :
    (l.flatMap (Series.rows q)).Perm ((l.flatMap fun s => (cursor q s).rows q) ++ l.flatMap (unread q)) :=
  (List.Perm.flatMap_left l fun s _ => rows_perm q s).trans (flatMap_append_perm l _ _).symm

/-- The rows that are read, up to a time. -/
def readUpTo (l : List Series) (t : ℤ) : ℕ :=
  ((l.flatMap fun s => (cursor q s).rows q).filter fun u => orderKey q.ascending u ≤ orderKey q.ascending t).length

/-- The rows of series, up to a time. -/
def rowsUpTo (l : List Series) (t : ℤ) : ℕ :=
  ((l.flatMap (Series.rows q)).filter fun u => orderKey q.ascending u ≤ orderKey q.ascending t).length

theorem limit_le_readUpTo {l : List Series} (hs : s ∈ l) {t u : ℤ} (hu : u ∈ unread q s)
    (hle : orderKey q.ascending u ≤ orderKey q.ascending t) : q.limit ≤ readUpTo q l t := by
  obtain ⟨hu, hnot⟩ := mem_filter.mp hu
  refine (limit_le_of_not_read q hu (of_decide_eq_true hnot)).trans ?_
  rw [readUpTo, filter_flatMap]
  have hsub : (((cursor q s).rows q).filter fun v => orderKey q.ascending v ≤ orderKey q.ascending u).Sublist
      (((cursor q s).rows q).filter fun v => orderKey q.ascending v ≤ orderKey q.ascending t) :=
    monotone_filter_right _ fun v hv => by
      rw [decide_eq_true_eq] at hv ⊢
      exact hv.trans hle
  refine hsub.length_le.trans (List.Sublist.length_le ?_)
  exact sublist_flatten_of_mem (mem_map_of_mem hs)

/-- Whether there are enough rows does not depend on the files that are left out. -/
theorem limit_le_readUpTo_iff (t : ℤ) : q.limit ≤ readUpTo q l t ↔ q.limit ≤ rowsUpTo q l t := by
  have hlen := ((flatMap_rows_read q l).filter fun u => orderKey q.ascending u ≤ orderKey q.ascending t).length_eq
  rw [filter_append, length_append, ← rowsUpTo, ← readUpTo] at hlen
  refine ⟨fun h => by omega, fun h => ?_⟩
  cases hmore : (l.flatMap (unread q)).filter fun u => orderKey q.ascending u ≤ orderKey q.ascending t with
  | nil =>
    rw [hmore, length_nil] at hlen
    omega
  | cons u us =>
    obtain ⟨hu, hle⟩ := mem_filter.mp (hmore ▸ mem_cons_self)
    obtain ⟨s, hs, hu⟩ := mem_flatMap.mp hu
    exact limit_le_readUpTo q hs hu (of_decide_eq_true hle)

/-- The first rows are kept exactly if the rows that are left out do not count. -/
theorem keeps_iff_readUpTo :
    q.Keeps ↔ ∀ s ∈ (ranked q).drop q.limit, ∀ t ∈ s.rows q, q.limit ≤ readUpTo q ((ranked q).take q.limit) t := by
  have hkey := orderKey_injective q.ascending
  let kept := (ranked q).take q.limit
  let dropped := (ranked q).drop q.limit
  let read := kept.flatMap fun s => (cursor q s).rows q
  let rest := kept.flatMap (unread q) ++ dropped.flatMap (Series.rows q)
  have hread : ((itrsInitWithLimit q).flatMap (Cursor.rows q)).Perm read := by
    rw [itrsInitWithLimit_eq]
    refine ((reverse_perm _).flatMap_right _).trans ?_
    rw [flatMap_map]
  have hall : (q.series.flatMap (Series.rows q)).Perm (read ++ rest) := by
    refine (flatMap_rows_perm q).trans ?_
    have hsplit : ranked q = kept ++ dropped := (take_append_drop ..).symm
    rw [hsplit, flatMap_append, ← append_assoc]
    exact (flatMap_rows_read q kept).append_right _
  rw [LimitQuery.Keeps, LimitQuery.firstRows, LimitQuery.firstRows, stableSort_congr hkey hread,
    stableSort_congr hkey hall, eq_comm, take_stableSort_append]
  constructor
  · intro h s hs t ht
    exact h t (mem_append_right _ (mem_flatMap.mpr ⟨s, hs, ht⟩))
  · intro h t ht
    rcases mem_append.mp ht with ht | ht
    · obtain ⟨s, hs, hu⟩ := mem_flatMap.mp ht
      exact limit_le_readUpTo q hs hu le_rfl
    · obtain ⟨s, hs, ht⟩ := mem_flatMap.mp ht
      exact h s hs t ht

/-- **Leaving out series keeps the first rows** exactly if each row of a series that is left out has enough rows of the
others that are not behind it. -/
theorem LimitQuery.keepsRows_iff :
    q.Keeps ↔ ∀ s ∈ (ranked q).drop q.limit, ∀ t ∈ s.rows q, q.limit ≤ rowsUpTo q ((ranked q).take q.limit) t := by
  rw [keeps_iff_readUpTo]
  simp only [limit_le_readUpTo_iff]

end FirstRows

/-! ### Series that are left out wrongly -/

/-- The rows of a series in one ordered file. -/
def oneChunk (c : Chunk) : Series where
  orders := [some c]
  outOfOrders := []
  mem := []
  pooled := 0
  orders_ascending := by
    change (c.times ++ []).Pairwise (· < ·)
    rw [append_nil]
    exact c.ascending
  mem_ascending := .nil

/-- A chunk that begins before the time range, and one that begins in it. -/
def beforeRange (lazyInit : Bool) : LimitQuery where
  series := [oneChunk ⟨[5, 20], by decide, by decide⟩, oneChunk ⟨[10], by decide, by decide⟩]
  tr := ⟨10, 20⟩
  ascending := true
  limit := 1
  lazyInit := lazyInit
  limit_pos := by decide
  more := by decide

/-- The series of the chunk that begins before the time range is kept, and the first row is lost; without a first time
the first series are kept. -/
theorem not_keeps_beforeRange : ¬ (beforeRange false).Keeps ∧ ¬ (beforeRange true).Keeps := by
  unfold LimitQuery.Keeps
  decide +kernel

end GeminiTS.Limit
