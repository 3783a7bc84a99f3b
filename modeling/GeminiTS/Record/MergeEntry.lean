import GeminiTS.Record.MergeSpec

/-!
# MergeEntry — the entry points of the limited merges
-/

namespace GeminiTS

open Lib List

/-! ### Search positions -/

section Search

variable {ascending : Bool} {l : List ℤ} {rows pos : ℕ}

/-- The position a time search answers with, among the first `rows` times. -/
def searchPos (ascending : Bool) (l : List ℤ) (rows pos : ℕ) (t : ℤ) : ℕ := (timeSearch ascending (l.take rows) pos t).1

variable (h : l.Pairwise (before ascending)) (hpos : pos ≤ rows) (hrows : rows ≤ l.length)

include h hpos hrows

theorem searchPos_spec (t : ℤ) : (pos ≤ searchPos ascending l rows pos t ∧ searchPos ascending l rows pos t ≤ rows) ∧
      (∀ s ∈ l.extract pos (searchPos ascending l rows pos t), before ascending s t) ∧
      ∀ s ∈ l.extract (searchPos ascending l rows pos t) rows, ¬ before ascending s t := by
  have hl := (timeSearch_located (h.sublist (take_sublist rows l))
    (show pos ≤ (l.take rows).length by rwa [length_take_of_le hrows]) t).1
  have hle := hl.le_length.trans (length_take_le _ _)
  refine ⟨⟨hl.start_le, hle⟩, fun s hs => ?_, fun s hs => ?_⟩
  · obtain ⟨i, hpi, hik, hi⟩ := mem_extract.mp hs
    exact timeCmp_eq_lt.mp (hl.lt_of_lt i s hpi hik (by rw [getElem?_take_of_lt (hik.trans_le hle), hi]))
  · obtain ⟨i, hki, hir, hi⟩ := mem_extract.mp hs
    exact mt timeCmp_eq_lt.mpr (hl.ne_lt_of_le i s hki (by rw [getElem?_take_of_lt hir, hi]))

theorem searchPos_mono {t1 t2 : ℤ} (ht : ¬ before ascending t2 t1) :
    searchPos ascending l rows pos t1 ≤ searchPos ascending l rows pos t2 := by
  obtain ⟨⟨-, hle1⟩, hin, -⟩ := searchPos_spec h hpos hrows t1
  obtain ⟨⟨hle2, -⟩, -, hout⟩ := searchPos_spec h hpos hrows t2
  by_contra hlt
  have hk := getElem?_eq_getElem (show searchPos ascending l rows pos t2 < l.length by omega)
  have hb1 := hin _ (mem_extract.mpr ⟨_, hle2, by omega, hk⟩)
  exact IsOrderConnected.neg_trans (hout _ (mem_extract.mpr ⟨_, le_rfl, by omega, hk⟩)) ht hb1

theorem before_behind (t : ℤ) :
    ∀ s ∈ l.extract (min (searchPos ascending l rows pos t + 1) rows) rows, before ascending t s := by
  obtain ⟨-, -, hout⟩ := searchPos_spec h hpos hrows t
  intro s hs
  obtain ⟨j, hj, hjr, hjs⟩ := mem_extract.mp hs
  obtain ⟨hjlen, rfl⟩ := List.getElem?_eq_some_iff.mp hjs
  generalize searchPos ascending l rows pos t = k at hout hj
  have hklen : k < l.length := by omega
  have hk := hout _ (mem_extract.mpr ⟨k, le_rfl, by omega, getElem?_eq_getElem hklen⟩)
  exact (IsOrderConnected.conn l[k] t l[j] (pairwise_iff_getElem.mp h k j hklen hjlen (by omega))).resolve_left hk

end Search

namespace Record

variable {F V : Type*} [LinearOrder F]

namespace Sources

variable {ascending : Bool} (S : Sources ascending F V) {newPos oldPos limit : ℕ}
  {newFirst oldFirst newLast oldLast : ℤ}

/-! ### The operating ranges the searches find -/

def symm : Sources ascending F V :=
  ⟨S.old, S.new, S.oldRows, S.newRows, S.oldWF, S.newWF, S.oldSorted, S.newSorted, S.oldLe, S.newLe⟩

theorem schema_symm : S.symm.schema = S.schema :=
  (mergeRecordSchema_ordered S.oldWF.ordered S.newWF.ordered).eq_of_mem_iff
    (mergeRecordSchema_ordered S.newWF.ordered S.oldWF.ordered) fun _ =>
      mem_mergeRecordSchema.trans (or_comm.trans mem_mergeRecordSchema.symm)

theorem times (hnp : newPos < S.newRows) (hop : oldPos < S.oldRows) :
    ∃ newFirst oldFirst newLast oldLast, S.new.times[newPos]? = some newFirst ∧
      S.old.times[oldPos]? = some oldFirst ∧ S.new.times[S.newRows - 1]? = some newLast ∧
      S.old.times[S.oldRows - 1]? = some oldLast := by
  have hnle := S.newLe
  have hole := S.oldLe
  exact ⟨_, _, _, _, getElem?_eq_getElem (by omega), getElem?_eq_getElem (by omega),
    getElem?_eq_getElem (by omega), getElem?_eq_getElem (by omega)⟩

variable {S}

/-- The ranges do not depend on which of the two records is called new. -/
theorem OpRanges.symm {a b c d : ℕ} (R : S.symm.OpRanges oldPos newPos a b c d) : S.OpRanges newPos oldPos c d a b :=
  ⟨R.oldFront, R.newFront, R.oldOp, R.newOp, R.oldBack, R.newBack, R.front.symm, R.back.symm⟩

/-- Nothing of `old` is behind anything of `new`: it does not matter which of the two is called new. -/
theorem left_symm {i j : ℕ}
    (h : Precede ascending (S.old.times.extract j S.oldRows) (S.new.times.extract i S.newRows)) :
    S.left i j = S.symm.left j i := by
  have h' : ∀ p ∈ S.old.rows.extract j S.oldRows, ∀ q ∈ S.new.rows.extract i S.newRows, before ascending p.1 q.1 :=
    fun p hp q hq => h _ (fst_mem_extract hp) _ (fst_mem_extract hq)
  have h1 : Lib.merge _ _ (_ ++ []) = _ := merge_append_right h'
  have h2 : Lib.merge _ (_ ++ []) _ = _ := merge_append_left h'
  rw [append_nil, merge_nil_right] at h1
  rw [append_nil, merge_nil_left] at h2
  exact h1.trans h2.symm

theorem Put.symm {rec rec' : Record F V} {i j i' j' l l' : ℕ} (h : S.symm.Put rec rec' j i j' i' l l')
    (hp : Precede ascending (S.old.times.extract j S.oldRows) (S.new.times.extract i S.newRows)) :
    S.Put rec rec' i j i' j' l l' := by
  obtain ⟨out, hr, hleft, hlen⟩ := h.out
  refine ⟨h.wf, h.schema, h.oldLe, h.newLe, out, hr, ?_, hlen⟩
  rw [left_symm hp, hleft, left_symm fun s hs t ht => hp s (extract_subset_extract _ h.newLe.1 le_rfl hs) t
    (extract_subset_extract _ h.oldLe.1 le_rfl ht)]

section Ranges

variable (hnp : newPos < S.newRows) (hop : oldPos < S.oldRows)

include hnp hop

theorem opRanges_new_old (hof : S.old.times[oldPos]? = some oldFirst)
    (hnl : S.new.times[S.newRows - 1]? = some newLast) :
    S.OpRanges newPos oldPos (searchPos ascending S.new.times S.newRows newPos oldFirst) (min S.newRows S.newRows)
      oldPos (min (searchPos ascending S.old.times S.oldRows oldPos newLast + 1) S.oldRows) := by
  obtain ⟨hs, hfront, -⟩ := searchPos_spec S.newSorted hnp.le S.newLe oldFirst
  obtain ⟨he, -, -⟩ := searchPos_spec S.oldSorted hop.le S.oldLe newLast
  rw [min_self]
  exact ⟨hs.1, le_rfl, hs.2, by omega, le_rfl, by omega,
    .inl ⟨rfl, .of_before hfront (not_before_first S.oldSorted hof)⟩,
    .inl ⟨rfl, .of_behind (not_before_last S.newSorted hnl) (before_behind S.oldSorted hop.le S.oldLe newLast)⟩⟩

/-- `old` starts first, and a position was found behind all of `new`. -/
theorem opRanges_old {e : ℕ} (hnf : S.new.times[newPos]? = some newFirst)
    (hnl : S.new.times[S.newRows - 1]? = some newLast)
    (he : searchPos ascending S.old.times S.oldRows oldPos newFirst ≤ e)
    (hb : ∀ s ∈ S.old.times.extract (min e S.oldRows) S.oldRows, before ascending newLast s) :
    S.OpRanges newPos oldPos newPos (min S.newRows S.newRows)
      (searchPos ascending S.old.times S.oldRows oldPos newFirst) (min e S.oldRows) := by
  obtain ⟨hs, hfront, -⟩ := searchPos_spec S.oldSorted hop.le S.oldLe newFirst
  rw [min_self]
  exact ⟨le_rfl, hs.1, hnp.le, by omega, le_rfl, by omega,
    .inr ⟨rfl, .of_before hfront (not_before_first S.newSorted hnf)⟩,
    .inl ⟨rfl, .of_behind (not_before_last S.newSorted hnl) hb⟩⟩

theorem opRanges_old_old (hnf : S.new.times[newPos]? = some newFirst)
    (hnl : S.new.times[S.newRows - 1]? = some newLast) :
    S.OpRanges newPos oldPos newPos (min S.newRows S.newRows)
      (searchPos ascending S.old.times S.oldRows oldPos newFirst)
      (min (searchPos ascending S.old.times S.oldRows oldPos newLast + 1) S.oldRows) := by
  have hse := searchPos_mono S.oldSorted hop.le S.oldLe (not_before_of_le S.newSorted (by omega) hnf hnl)
  exact opRanges_old hnp hop hnf hnl (by omega) (before_behind S.oldSorted hop.le S.oldLe newLast)

end Ranges

/-! ### The overlap merges -/

theorem wf_ofSchema (S : Sources ascending F V) : (ofSchema S.schema : Record F V).WF :=
  Record.wf_ofSchema (mergeRecordSchema_ordered S.newWF.ordered S.oldWF.ordered)

/-- The ascending overlap merge; the next time after a time of `new` has to be representable if `old` goes on. -/
theorem mergeRecordOverlap_merges (S : Sources true F V) (hnp : newPos < S.newRows) (hop : oldPos < S.oldRows)
    (hint : ∀ t ∈ S.new.times, minInt64 ≤ t ∧ ∀ u ∈ S.old.times, t ≤ u → t < maxInt64) (hl : 0 < limit) :
    S.Merges (ofSchema S.schema) newPos oldPos limit (mergeRecordOverlap S.new S.old (S.new.times.take S.newRows)
      (S.old.times.take S.oldRows) newPos oldPos S.newRows S.oldRows limit) := by
  obtain ⟨newFirst, oldFirst, newLast, oldLast, hnf, hof, hnl, hol⟩ := S.times hnp hop
  obtain ⟨hmin, hmax⟩ := hint newLast (mem_of_getElem? hnl)
  unfold mergeRecordOverlap
  rw [getElem?_take_of_lt hnp, getElem?_take_of_lt hop,
    getElem?_take_of_lt (by omega), getElem?_take_of_lt (by omega), hnf, hof, hnl, hol]
  dsimp only
  split_ifs with hfirst hlast hlast <;> refine mergeRecordOverlapImpl_merges ?_ S.wf_ofSchema (schema_ofSchema _) hl
  · exact opRanges_new_old hnp hop hof hnl
  · exact (opRanges_old_old hop hnp hof hol).symm
  · -- `old` starts first and ends last; the end is searched for with the next time
    have hlt := hmax oldLast (mem_of_getElem? hol) hlast
    rw [int64_of_mem (by omega) (by omega)]
    have hle := not_before_of_le S.newSorted (by omega) hnf hnl
    refine opRanges_old hnp hop hnf hnl (searchPos_mono S.oldSorted hop.le S.oldLe ?_) fun s hs => ?_
    · rw [before_true] at hle ⊢
      omega
    · obtain ⟨⟨-, hle⟩, -, hout⟩ := searchPos_spec S.oldSorted hop.le S.oldLe (newLast + 1)
      have hs' := hout s (extract_subset_extract _ (le_min le_rfl hle) le_rfl hs)
      rw [before_true] at hs' ⊢
      omega
  · exact (opRanges_new_old hop hnp hnf hol).symm

theorem mergeRecordOverlapDescend_merges (S : Sources false F V) (hnp : newPos < S.newRows) (hop : oldPos < S.oldRows)
    (hl : 0 < limit) :
    S.Merges (ofSchema S.schema) newPos oldPos limit (mergeRecordOverlapDescend S.new S.old
      (S.new.times.take S.newRows) (S.old.times.take S.oldRows) newPos oldPos S.newRows S.oldRows limit) := by
  obtain ⟨newFirst, oldFirst, newLast, oldLast, hnf, hof, hnl, hol⟩ := S.times hnp hop
  unfold mergeRecordOverlapDescend
  rw [getElem?_take_of_lt hnp, getElem?_take_of_lt hop,
    getElem?_take_of_lt (by omega), getElem?_take_of_lt (by omega), hnf, hof, hnl, hol]
  dsimp only
  split_ifs <;> refine mergeRecordOverlapImpl_merges ?_ S.wf_ofSchema (schema_ofSchema _) hl
  · exact (opRanges_new_old hop hnp hnf hol).symm
  · exact (opRanges_old_old hop hnp hof hol).symm
  · exact opRanges_new_old hnp hop hof hnl
  · exact opRanges_old_old hnp hop hnf hnl

theorem Merges.exists_put {res : Option (Record F V × ℕ × ℕ)} (h : S.Merges (ofSchema S.schema) newPos oldPos limit res)
    (hnp : newPos < S.newRows) (hl : 0 < limit) : ∃ page i' j' l', res = some (page, i', j') ∧
      S.Put (ofSchema S.schema) page newPos oldPos i' j' limit l' ∧ l' < limit := by
  obtain ⟨page, i', j', l', heq, hput, hend⟩ := h
  obtain ⟨out, -, hleft, hlen⟩ := hput.out
  refine ⟨page, i', j', l', heq, hput, Nat.lt_of_not_le fun hle => ?_⟩
  obtain rfl : out = [] := length_eq_zero_iff.mp (by omega)
  obtain ⟨rfl, rfl⟩ := hend (by omega)
  refine merge_ne_nil ?_ (hleft.trans (by simp [left]))
  have := S.newLe
  rw [← length_pos_iff, length_extract, length_rows]
  omega

theorem precede_of_last (hnl : S.new.times[S.newRows - 1]? = some newLast)
    (hof : S.old.times[oldPos]? = some oldFirst) (h : before ascending newLast oldFirst) :
    Precede ascending (S.new.times.extract newPos S.newRows) (S.old.times.extract oldPos S.oldRows) :=
  .of_behind (not_before_last S.newSorted hnl) fun u hu =>
    (IsOrderConnected.conn newLast u oldFirst h).resolve_right (not_before_first S.oldSorted hof u hu)

theorem mergeRecordNonOverlap_put (hnp : newPos < S.newRows) (hop : oldPos ≤ S.oldRows)
    (h : Precede ascending (S.new.times.extract newPos S.newRows) (S.old.times.extract oldPos S.oldRows))
    (hl : 0 < limit) :
    ∃ page newEnd oldEnd l', mergeRecordNonOverlap S.old S.new oldPos newPos S.oldRows S.newRows limit =
        (page, oldEnd, newEnd) ∧ S.Put (ofSchema S.schema) page newPos oldPos newEnd oldEnd limit l' ∧
      l' < limit := by
  -- all of `new` and a part of `old`, or a part of `new`
  have hput {n o : ℕ} (hn : newPos < n ∧ n ≤ S.newRows) (ho : oldPos ≤ o ∧ o ≤ S.oldRows)
      (hno : n = S.newRows ∨ o = oldPos)
      (hle : n - newPos + (o - oldPos) ≤ limit) :
      S.Put (ofSchema S.schema) (nonOverlap S.old S.new oldPos o newPos n) newPos oldPos n o limit
        (limit - (n - newPos + (o - oldPos))) ∧ limit - (n - newPos + (o - oldPos)) < limit := by
    have hnle := S.newLe
    have hole := S.oldLe
    have hrows := rows_nonOverlap S.oldWF S.newWF ho.1 (by omega) hn.1.le (by omega)
    have hlen : (nonOverlap S.old S.new oldPos o newPos n).rows.length = n - newPos + (o - oldPos) := by
      rw [hrows, length_append, length_extract, length_extract, length_rows, length_rows]
      omega
    refine ⟨⟨S.oldWF.nonOverlap S.newWF ho.1 (by omega) hn.1.le (by omega),
      schema_nonOverlap.trans (S.schema_symm.trans (schema_ofSchema _).symm), ⟨hn.1.le, hn.2⟩, ho,
      (nonOverlap S.old S.new oldPos o newPos n).rows, rfl, ?_, by omega⟩, by omega⟩
    rw [left_new hn.1.le hn.2 (h.mono (extract_subset_extract _ le_rfl hn.2)), hrows, append_assoc]
    refine congrArg _ ?_
    rcases hno with rfl | rfl
    · rw [left, left, extract_of_le _ le_rfl, merge_nil_left, merge_nil_left, extract_append_extract _ ho.1 ho.2]
    · rw [extract_of_le _ le_rfl, nil_append]
  unfold mergeRecordNonOverlap
  split_ifs with hfit
  · dsimp only
    generalize he : (if S.oldRows - oldPos ≤ limit - (S.newRows - newPos) then _ else _) = e
    have he' : oldPos ≤ e ∧ e ≤ S.oldRows ∧ S.newRows - newPos + (e - oldPos) ≤ limit := by split_ifs at he <;> omega
    exact ⟨_, _, _, _, rfl, hput ⟨hnp, le_rfl⟩ ⟨he'.1, he'.2.1⟩ (.inl rfl) he'.2.2⟩
  · exact ⟨_, _, _, _, rfl, hput (by omega) ⟨le_rfl, hop⟩ (.inr rfl) (by omega)⟩

end Sources

open Sources

/-! ### One page -/

section Page

variable {ascending : Bool} {new old : Record F V} {newPos oldPos limit : ℕ} {rest : List (ℤ × Row F V)}

/-- `res` is a page: rows, at most `limit`, with which the merge of `new` and of `old` followed by
`rest` starts, and the positions from which it goes on. -/
def IsPage (ascending : Bool) (new old : Record F V) (newPos oldPos limit : ℕ)
    (rest : List (ℤ × Row F V)) (res : Option (Record F V × ℕ × ℕ)) : Prop :=
  ∃ page newEnd oldEnd, res = some (page, newEnd, oldEnd) ∧ page.WF ∧ page.rows ≠ [] ∧ page.rows.length ≤ limit ∧
    Lib.merge (before ascending) (new.rows.drop newPos) (old.rows.drop oldPos ++ rest) =
      page.rows ++ Lib.merge (before ascending) (new.rows.drop newEnd) (old.rows.drop oldEnd ++ rest) ∧
    newEnd ≤ new.times.length ∧ oldEnd ≤ old.times.length

theorem fst_mem_drop {r : Record F V} {n : ℕ} {p : ℤ × Row F V} (h : p ∈ r.rows.drop n) : p.1 ∈ r.times.drop n := by
  rw [← r.map_fst_rows, ← map_drop]
  exact mem_map_of_mem h

/-- Rows put out are a page if the rows of `new` that wait come after `old`, and those that take part before `rest`. -/
theorem Sources.Put.isPage {S : Sources ascending F V} {names : List F} {page : Record F V} {newEnd oldEnd l' : ℕ}
    (h : S.Put (ofSchema names) page newPos oldPos newEnd oldEnd limit l') (hlt : l' < limit)
    (hall : S.oldRows = S.old.times.length) (hlate : Precede ascending S.old.times (S.new.times.drop S.newRows))
    (hearly : Precede ascending (S.new.times.extract newPos S.newRows) (rest.map Prod.fst))
    (hrest : Precede ascending S.old.times (rest.map Prod.fst)) :
    IsPage ascending S.new S.old newPos oldPos limit rest (some (page, newEnd, oldEnd)) := by
  obtain ⟨out, hrows, hleft, hlen⟩ := h.out
  obtain rfl : page.rows = out := hrows
  -- everything in range is before the late rows of `new` and before `rest`
  have hcut {i j : ℕ} (hi : newPos ≤ i) : ∀ p ∈ S.new.rows.extract i S.newRows ++ S.old.rows.extract j S.oldRows,
      ∀ q ∈ S.new.rows.drop S.newRows ++ rest, before ascending p.1 q.1 := by
    intro p hp q hq
    rcases mem_append.mp hp with hp | hp <;> rcases mem_append.mp hq with hq | hq
    · have hsorted := S.newSorted
      rw [← take_append_drop S.newRows S.new.times] at hsorted
      obtain ⟨k, -, hk, hkp⟩ := mem_extract.mp (fst_mem_extract hp)
      exact (pairwise_append.mp hsorted).2.2 _ (mem_of_getElem? (by rwa [getElem?_take_of_lt hk])) _ (fst_mem_drop hq)
    · exact hearly _ (extract_subset_extract _ hi le_rfl (fst_mem_extract hp)) _ (mem_map_of_mem hq)
    · exact hlate _ (mem_of_mem_extract (fst_mem_extract hp)) _ (fst_mem_drop hq)
    · exact hrest _ (mem_of_mem_extract (fst_mem_extract hp)) _ (mem_map_of_mem hq)
  have hdrop {i j : ℕ} (hi : newPos ≤ i ∧ i ≤ S.newRows) :
      Lib.merge (before ascending) (S.new.rows.drop i) (S.old.rows.drop j ++ rest) =
        S.left i j ++ Lib.merge (before ascending) (S.new.rows.drop S.newRows) rest := by
    have hnew : S.new.rows.drop i = S.new.rows.extract i S.newRows ++ S.new.rows.drop S.newRows := by
      rw [← extract_length, ← extract_length, extract_append_extract _ hi.2 (by rw [length_rows]; exact S.newLe)]
    have hold : S.old.rows.drop j = S.old.rows.extract j S.oldRows := by
      rw [hall, ← length_rows, extract_length]
    rw [hnew, hold, merge_append (hcut hi.1)]
    rfl
  refine ⟨page, newEnd, oldEnd, rfl, h.wf, fun hnil => ?_, by omega, ?_, h.newLe.2.trans S.newLe,
    h.oldLe.2.trans S.oldLe⟩
  · rw [hnil, length_nil] at hlen
    omega
  · rw [hdrop ⟨le_rfl, h.newLe.1.trans h.newLe.2⟩, hdrop h.newLe, hleft, append_assoc]

section Cases

variable (hn : new.WF) (ho : old.WF) (hns : new.times.Pairwise (before ascending))
  (hos : old.times.Pairwise (before ascending))

/-- Both records, of `new` the first `n` rows. -/
def Sources.ofRows (n : ℕ) (h : n ≤ new.times.length) : Sources ascending F V :=
  ⟨new, old, n, old.times.length, hn, ho, hns, hos, h, le_rfl⟩

variable (hnp : newPos < new.times.length) (hop : oldPos < old.times.length) (hl : 0 < limit)
  (hrest : Precede ascending old.times (rest.map Prod.fst)) {newFirst newLast oldFirst oldLast : ℤ}

include hn ho hns hos hnp hop hl hrest

theorem isPage_restOfOld (hlim : old.times.length ≤ limit) (hnf : new.times[newPos]? = some newFirst)
    (hol : old.times[old.times.length - 1]? = some oldLast) (h : before ascending oldLast newFirst) :
    IsPage ascending new old newPos oldPos limit rest
      (some ((ofSchema old.schema).appendRec old oldPos old.rowNums, newPos, old.rowNums)) := by
  have hput : (ofRows hn ho hns hos newPos hnp.le).Put (ofSchema old.schema)
      ((ofSchema old.schema).appendRec old oldPos old.times.length)
      newPos oldPos newPos old.times.length limit (limit - (old.times.length - oldPos)) := by
    refine put_appendRec (wf_ofSchema ho.ordered) ho (by simp) hop.le le_rfl ⟨le_rfl, le_rfl⟩ ⟨hop.le, le_rfl⟩
      (by omega) ?_
    simp [ofRows, left]
  refine hput.isPage (by omega) rfl ?_ ?_ hrest
  · rw [← extract_length]
    exact .of_before (before_of_last hos hol h) (not_before_first hns hnf)
  · intro s hs
    change s ∈ new.times.extract newPos newPos at hs
    rw [extract_of_le _ le_rfl] at hs
    exact absurd hs not_mem_nil

theorem isPage_newInFront (hnl : new.times[new.times.length - 1]? = some newLast)
    (hof : old.times[oldPos]? = some oldFirst) (h : before ascending newLast oldFirst) :
    IsPage ascending new old newPos oldPos limit rest
      (some ((mergeRecordNonOverlap old new oldPos newPos old.rowNums new.rowNums limit).1,
        (mergeRecordNonOverlap old new oldPos newPos old.rowNums new.rowNums limit).2.2,
        (mergeRecordNonOverlap old new oldPos newPos old.rowNums new.rowNums limit).2.1)) := by
  obtain ⟨page, newEnd, oldEnd, l', heq, hput, hlt⟩ := mergeRecordNonOverlap_put
    (S := ofRows hn ho hns hos _ le_rfl) hnp hop.le (precede_of_last hnl hof h) hl
  dsimp only [ofRows] at heq
  rw [rowNums_eq, rowNums_eq, heq]
  refine hput.isPage hlt rfl ?_ (fun s hs q hq => ?_) hrest
  · dsimp only [ofRows]
    rw [drop_length]
    exact fun _ _ _ h => absurd h not_mem_nil
  · exact trans_of (before ascending) (before_of_last hns hnl h s (mem_of_mem_extract hs))
      (hrest _ (mem_of_getElem? hof) q hq)

omit hop in
/-- The records overlap: rows of `new` past the end of `old` wait. -/
theorem isPage_overlap (hnf : new.times[newPos]? = some newFirst)
    (hol : old.times[old.times.length - 1]? = some oldLast) (h : ¬ before ascending oldLast newFirst) {n : ℕ}
    (he : n = (endIndex (timeSearch ascending new.times newPos oldLast) + 1).toNat)
    {res : Option (Record F V × ℕ × ℕ)} (hres : ∀ hle : n ≤ new.times.length, newPos < n →
      (ofRows hn ho hns hos n hle).Merges (ofSchema (ofRows hn ho hns hos n hle).schema) newPos oldPos limit res) :
    IsPage ascending new old newPos oldPos limit rest res := by
  obtain ⟨hle, hlen, hin, hout⟩ := endIndex_located hns hnp.le oldLast he
  have hlt : newPos < n := by
    rcases Nat.lt_or_eq_of_le hle with hlt | rfl
    · exact hlt
    · exact absurd (hout _ _ le_rfl hnf) h
  obtain ⟨page, i', j', l', rfl, hput, hl'⟩ := (hres hlen hlt).exists_put hlt hl
  refine hput.isPage hl' rfl (fun s hs t ht => ?_) ?_ hrest
  · rw [← extract_length] at ht
    obtain ⟨j, hj, -, hjt⟩ := mem_extract.mp ht
    exact before_of_last hos hol (hout j t hj hjt) s hs
  · refine .of_behind (fun s hs => ?_) (hrest _ (mem_of_getElem? hol))
    obtain ⟨i, hi, hin', his⟩ := mem_extract.mp hs
    exact hin i s hi hin' his

end Cases

/-- **One page of a merging read**: `MergeRecordByMaxTimeOfOldRec` puts out rows with which the
merge of the new record and of the old record followed by later rows starts. -/
theorem mergeRecordByMaxTimeOfOldRec_page (hn : new.WF) (ho : old.WF)
    (hns : new.times.Pairwise (before ascending)) (hos : old.times.Pairwise (before ascending))
    (hnp : newPos < new.times.length) (hop : oldPos < old.times.length)
    (hlim : old.times.length ≤ limit)
    (hint : ascending = true → ∀ t ∈ new.times, minInt64 ≤ t ∧ ∀ u ∈ old.times, t ≤ u → t < maxInt64)
    (hrest : ∀ p ∈ old.rows, ∀ q ∈ rest, before ascending p.1 q.1) :
    IsPage ascending new old newPos oldPos limit rest
      (mergeRecordByMaxTimeOfOldRec new old newPos oldPos limit ascending) := by
  obtain ⟨newFirst, oldFirst, newLast, oldLast, hnf, hof, hnl, hol⟩ := (ofRows hn ho hns hos _ le_rfl).times hnp hop
  dsimp only [ofRows] at hnf hof hnl hol
  have hl : 0 < limit := by omega
  have hrest' : Precede ascending old.times (rest.map Prod.fst) := by
    rw [← old.map_fst_rows]
    exact forall_mem_map.mpr fun p hp => forall_mem_map.mpr (hrest p hp)
  unfold mergeRecordByMaxTimeOfOldRec
  rw [getLast?_eq_getElem?, getLast?_eq_getElem?, hnf, hof, hnl, hol]
  cases ascending with
  | true =>
    simp only [if_true]
    split_ifs with h1 h2
    · exact isPage_restOfOld hn ho hns hos hnp hop hl hrest' hlim hnf hol h1
    · exact isPage_newInFront hn ho hns hos hnp hop hl hrest' hnl hof h2
    · refine isPage_overlap hn ho hns hos hnp hl hrest' hnf hol h1 rfl fun hle hlt => ?_
      have hm := mergeRecordOverlap_merges (ofRows hn ho hns hos _ hle) hlt hop (hint rfl) hl
      dsimp only [ofRows] at hm
      rwa [take_length] at hm
  | false =>
    simp only [Bool.false_eq_true, if_false]
    split_ifs with h1 h2
    · exact isPage_newInFront hn ho hns hos hnp hop hl hrest' hnl hof h1
    · exact isPage_restOfOld hn ho hns hos hnp hop hl hrest' hlim hnf hol h2
    · refine isPage_overlap hn ho hns hos hnp hl hrest' hnf hol h2 rfl fun hle hlt => ?_
      have hm := mergeRecordOverlapDescend_merges (ofRows hn ho hns hos _ hle) hlt hop hl
      dsimp only [ofRows] at hm
      rwa [take_length] at hm

end Page

end Record

end GeminiTS
