import GeminiTS.Record.Merge

/-!
# MergeSpec — what the limited merges of two records put out

A limited merge puts out a front part of the merge of the two rests and leaves positions from
which the remaining merge continues.
-/

namespace GeminiTS

open Lib List

/-! ### Times in front of other times -/

section Times

variable {ascending : Bool} {l l' k : List ℤ} {s t : ℤ} {a b i j : ℕ}

/-- All times of one list come before those of the other. -/
def Precede (ascending : Bool) (l l' : List ℤ) : Prop := ∀ s ∈ l, ∀ t ∈ l', before ascending s t

theorem Precede.mono (h : Precede ascending l l') (hk : k ⊆ l) : Precede ascending k l' := fun s hs => h s (hk hs)

theorem Precede.of_before (h : ∀ s ∈ l, before ascending s t) (h' : ∀ s ∈ l', ¬ before ascending s t) :
    Precede ascending l l' :=
  fun s hs u hu => (IsOrderConnected.conn s u t (h s hs)).resolve_right (h' u hu)

theorem Precede.of_behind (h : ∀ s ∈ l, ¬ before ascending t s) (h' : ∀ s ∈ l', before ascending t s) :
    Precede ascending l l' :=
  fun s hs u hu => (IsOrderConnected.conn t s u (h' u hu)).resolve_left (h s hs)

theorem precede_empty : Precede ascending l (l'.extract i i) := by
  rw [extract_of_le _ le_rfl]
  exact fun _ _ _ h => absurd h not_mem_nil

theorem forall_mem_extract_one {P : ℤ → Prop} (hi : l[i]? = some t) (ht : P t) : ∀ s ∈ l.extract i (i + 1), P s := by
  intro s hs
  obtain ⟨j, hij, hji, hj⟩ := mem_extract.mp hs
  obtain rfl : j = i := by omega
  rw [hi] at hj
  exact Option.some.inj hj ▸ ht

variable (h : l.Pairwise (before ascending))

include h

theorem not_before_of_le (hij : i ≤ j) (hs : l[i]? = some s) (ht : l[j]? = some t) : ¬ before ascending t s := by
  obtain ⟨hi, rfl⟩ := List.getElem?_eq_some_iff.mp hs
  obtain ⟨hj, rfl⟩ := List.getElem?_eq_some_iff.mp ht
  rcases Nat.lt_or_eq_of_le hij with hij | rfl
  · exact asymm_of _ (pairwise_iff_getElem.mp h i j hi hj hij)
  · exact irrefl_of (before ascending) _

theorem not_before_first (ht : l[a]? = some t) : ∀ s ∈ l.extract a b, ¬ before ascending s t := by
  intro s hs
  obtain ⟨i, hai, -, hi⟩ := mem_extract.mp hs
  exact not_before_of_le h hai ht hi

theorem not_before_last (ht : l[b - 1]? = some t) : ∀ s ∈ l.extract a b, ¬ before ascending t s := by
  intro s hs
  obtain ⟨i, -, hib, hi⟩ := mem_extract.mp hs
  exact not_before_of_le h (by omega) hi ht

theorem before_of_last (ht : l[l.length - 1]? = some t) {u : ℤ} (htu : before ascending t u) :
    ∀ s ∈ l, before ascending s u := by
  intro s hs
  rw [← @drop_zero _ l, ← extract_length] at hs
  exact (IsOrderConnected.conn t s u htu).resolve_left (not_before_last h ht s hs)

end Times

namespace Record

variable {F V : Type*} [LinearOrder F]

theorem fst_mem_extract {r : Record F V} {a b : ℕ} {p : ℤ × Row F V} (h : p ∈ r.rows.extract a b) :
    p.1 ∈ r.times.extract a b := by
  rw [← r.map_fst_rows, ← map_extract]
  exact mem_map_of_mem h

/-! ### Putting out a front part of a merge -/

/-- Two well formed records with ordered times; only the first `newRows` and `oldRows` rows of
them take part. -/
structure Sources (ascending : Bool) (F V : Type*) [LinearOrder F] where
  new : Record F V
  old : Record F V
  newRows : ℕ
  oldRows : ℕ
  newWF : new.WF
  oldWF : old.WF
  newSorted : new.times.Pairwise (before ascending)
  oldSorted : old.times.Pairwise (before ascending)
  newLe : newRows ≤ new.times.length
  oldLe : oldRows ≤ old.times.length

namespace Sources

variable {ascending : Bool} (S : Sources ascending F V)

/-- The merge from two positions on. -/
def left (i j : ℕ) : List (ℤ × Row F V) :=
  Lib.merge (before ascending) (S.new.rows.extract i S.newRows) (S.old.rows.extract j S.oldRows)

/-- `rec` became `rec'` by a front part of the merge from `i`, `j` on; it goes on from `i'`, `j'`, and of `l` rows
allowed `l'` are left. -/
structure Put (rec rec' : Record F V) (i j i' j' l l' : ℕ) : Prop where
  wf : rec'.WF
  schema : rec'.schema = rec.schema
  newLe : i ≤ i' ∧ i' ≤ S.newRows
  oldLe : j ≤ j' ∧ j' ≤ S.oldRows
  out : ∃ out, rec'.rows = rec.rows ++ out ∧ S.left i j = out ++ S.left i' j' ∧ out.length + l' = l

/-- The columns of both records. -/
def schema : List F := mergeRecordSchema S.new.schema S.old.schema

variable {S} {rec rec1 rec2 : Record F V} {i j i1 j1 i2 j2 e l l1 l2 : ℕ}

theorem Put.refl (h : rec.WF) (hi : i ≤ S.newRows) (hj : j ≤ S.oldRows) : S.Put rec rec i j i j l l :=
  ⟨h, rfl, ⟨le_rfl, hi⟩, ⟨le_rfl, hj⟩, [], by simp⟩

theorem Put.trans (h1 : S.Put rec rec1 i j i1 j1 l l1) (h2 : S.Put rec1 rec2 i1 j1 i2 j2 l1 l2) :
    S.Put rec rec2 i j i2 j2 l l2 := by
  obtain ⟨out1, hr1, hm1, hl₁⟩ := h1.out
  obtain ⟨out2, hr2, hm2, hl2⟩ := h2.out
  refine ⟨h2.wf, h2.schema.trans h1.schema, ⟨h1.newLe.1.trans h2.newLe.1, h2.newLe.2⟩,
    ⟨h1.oldLe.1.trans h2.oldLe.1, h2.oldLe.2⟩, out1 ++ out2, ?_, ?_, ?_⟩
  · rw [hr2, hr1, append_assoc]
  · rw [hm1, hm2, append_assoc]
  · rw [length_append]
    omega

theorem put_appendRec {r : Record F V} (hrec : rec.WF) (hr : r.WF) (hsub : ∀ f ∈ r.schema, f ∈ rec.schema) {s : ℕ}
    (hse : s ≤ e) (he : e ≤ r.times.length) (hi : i ≤ i1 ∧ i1 ≤ S.newRows) (hj : j ≤ j1 ∧ j1 ≤ S.oldRows)
    (hl : l1 + (e - s) = l) (hleft : S.left i j = r.rows.extract s e ++ S.left i1 j1) :
    S.Put rec (rec.appendRec r s e) i j i1 j1 l l1 := by
  refine ⟨hrec.appendRec hr hsub hse he, schema_appendRec _ _ _ _, hi, hj, _, rows_appendRec hrec hr hsub hse he,
    hleft, ?_⟩
  rw [length_extract, length_rows]
  omega

theorem left_new (hie : i ≤ e) (he : e ≤ S.newRows)
    (h : Precede ascending (S.new.times.extract i e) (S.old.times.extract j S.oldRows)) :
    S.left i j = S.new.rows.extract i e ++ S.left e j := by
  rw [left, ← extract_append_extract _ hie he]
  exact merge_append_left fun p hp q hq => h _ (fst_mem_extract hp) _ (fst_mem_extract hq)

section Append

variable (hrec : rec.WF) (hschema : rec.schema = S.schema)

include hrec hschema

/-- Rows of `new` in front of everything left of `old` are put out. -/
theorem put_new (hie : i ≤ e) (he : e ≤ S.newRows) (hj : j ≤ S.oldRows) (hl : l1 + (e - i) = l)
    (h : Precede ascending (S.new.times.extract i e) (S.old.times.extract j S.oldRows)) :
    S.Put rec (rec.appendRec S.new i e) i j e j l l1 := by
  refine put_appendRec hrec S.newWF (fun f hf => ?_) hie (he.trans S.newLe) ⟨hie, he⟩ ⟨le_rfl, hj⟩ hl
    (left_new hie he h)
  rw [hschema]
  exact mem_mergeRecordSchema.mpr (.inl hf)

/-- Rows of `old` in front of everything left of `new` are put out. -/
theorem put_old (hje : j ≤ e) (he : e ≤ S.oldRows) (hi : i ≤ S.newRows) (hl : l1 + (e - j) = l)
    (h : Precede ascending (S.old.times.extract j e) (S.new.times.extract i S.newRows)) :
    S.Put rec (rec.appendRec S.old j e) i j i e l l1 := by
  refine put_appendRec hrec S.oldWF (fun f hf => ?_) hje (he.trans S.oldLe) ⟨le_rfl, hi⟩ ⟨hje, he⟩ hl ?_
  · rw [hschema]
    exact mem_mergeRecordSchema.mpr (.inr hf)
  · rw [left, ← extract_append_extract _ hje he]
    exact merge_append_right fun p hp q hq => h _ (fst_mem_extract hp) _ (fst_mem_extract hq)

theorem put_new_limit (he : e ≤ S.newRows) (hj : j ≤ S.oldRows) (hle : l ≤ e - i) (hi : i ≤ e)
    (h : Precede ascending (S.new.times.extract i e) (S.old.times.extract j S.oldRows)) :
    S.Put rec (rec.appendRec S.new i (i + l)) i j (i + l) j l 0 :=
  put_new hrec hschema (by omega) (by omega) hj (by omega) (h.mono (extract_subset_extract _ le_rfl (by omega)))

theorem put_old_limit (he : e ≤ S.oldRows) (hi : i ≤ S.newRows) (hle : l ≤ e - j) (hj : j ≤ e)
    (h : Precede ascending (S.old.times.extract j e) (S.new.times.extract i S.newRows)) :
    S.Put rec (rec.appendRec S.old j (j + l)) i j i (j + l) l 0 :=
  put_old hrec hschema (by omega) (by omega) hi (by omega) (h.mono (extract_subset_extract _ le_rfl (by omega)))

theorem put_row (hi : i < S.newRows) (hj : j < S.oldRows) {t : ℤ} (hnt : S.new.times[i]? = some t)
    (hot : S.old.times[j]? = some t) :
    S.Put rec (rec.mergeRecRow S.new S.old i j) i j (i + 1) (j + 1) (l + 1) l := by
  obtain ⟨hin, rfl⟩ := List.getElem?_eq_some_iff.mp hnt
  obtain ⟨hjo, ht⟩ := List.getElem?_eq_some_iff.mp hot
  have hi' : i < S.new.rows.length := by rwa [length_rows]
  have hj' : j < S.old.rows.length := by rwa [length_rows]
  have hri : S.new.rows[i] = (S.new.times[i], S.new.row i) := by simp [rows]
  have hrj : S.old.rows[j] = (S.new.times[i], S.old.row j) := by simp [rows, ht]
  refine ⟨hrec.mergeRecRow S.newWF S.oldWF hschema hin hjo, schema_mergeRecRow _ _ _ _ _, ⟨by omega, hi⟩,
    ⟨by omega, hj⟩, _,
    rows_mergeRecRow hrec S.newWF S.oldWF hschema hin hjo, ?_, Nat.add_comm _ _⟩
  rw [left, extract_eq_cons _ hi hi', extract_eq_cons _ hj hj', hri, hrj,
    merge_cons_of_key_eq (show (S.new.times[i], S.new.row i).1 = (S.new.times[i], S.old.row j).1 from rfl)]
  rfl

end Append

/-! ### The row loop -/

section Loop

variable {newEnd oldEnd ns os : ℕ}

/-- One turn: the record, the positions and how they relate to the merge. -/
theorem put_turn (hrec : rec.WF) (hschema : rec.schema = S.schema) (hns : ns < S.newRows) (hos : os < S.oldRows)
    (hl : 0 < l) {tNew tOld : ℤ} (hnt : S.new.times[ns]? = some tNew) (hot : S.old.times[os]? = some tOld)
    {next : Record F V × ℕ × ℕ} (hnext : next = if before ascending tOld tNew then
        (rec.appendRec S.old os (os + 1), ns, os + 1)
      else if before ascending tNew tOld then (rec.appendRec S.new ns (ns + 1), ns + 1, os)
      else (rec.mergeRecRow S.new S.old ns os, ns + 1, os + 1)) :
    S.Put rec next.1 ns os next.2.1 next.2.2 l (l - 1) ∧ next.2.1 ≤ ns + 1 ∧ next.2.2 ≤ os + 1 ∧
      ns + os < next.2.1 + next.2.2 := by
  obtain ⟨l, rfl⟩ : ∃ k, l = k + 1 := ⟨l - 1, by omega⟩
  subst hnext
  split_ifs with h1 h2
  · refine ⟨put_old hrec hschema (by omega) (by omega) (by omega) (by omega) ?_, by simp⟩
    exact .of_before (forall_mem_extract_one hot h1) (not_before_first S.newSorted hnt)
  · refine ⟨put_new hrec hschema (by omega) (by omega) (by omega) (by omega) ?_, by simp⟩
    exact .of_before (forall_mem_extract_one hnt h2) (not_before_first S.oldSorted hot)
  · obtain rfl := Std.Trichotomous.trichotomous _ _ h1 h2
    exact ⟨put_row hrec hschema hns hos hnt hot, by simp; omega⟩

theorem appendRecsLoop_put (hne : newEnd ≤ S.newRows) (hoe : oldEnd ≤ S.oldRows) (turns : ℕ) (hrec : rec.WF)
    (hschema : rec.schema = S.schema) (hns : ns ≤ newEnd) (hos : os ≤ oldEnd) (hl : 0 < l)
    (hturns : (newEnd - ns) + (oldEnd - os) ≤ turns) :
    ∃ rec' l' ns' os', appendRecsLoop ascending S.new S.old (S.new.times.take S.newRows) (S.old.times.take S.oldRows)
        newEnd oldEnd turns rec ns os l = some (rec', l', ns', os') ∧
      S.Put rec rec' ns os ns' os' l l' ∧ ns' ≤ newEnd ∧ os' ≤ oldEnd ∧
      (l' ≠ 0 → ns' = newEnd ∨ os' = oldEnd) := by
  induction turns generalizing rec ns os l with
  | zero =>
    exact ⟨rec, l, ns, os, rfl, .refl hrec (by omega) (by omega), hns, hos, fun _ => by omega⟩
  | succ turns ih =>
    unfold appendRecsLoop
    by_cases hlt : ns < newEnd ∧ os < oldEnd
    swap
    · rw [if_neg hlt]
      exact ⟨rec, l, ns, os, rfl, .refl hrec (by omega) (by omega), hns, hos, fun _ => by omega⟩
    obtain ⟨tNew, hnt⟩ : ∃ t, S.new.times[ns]? = some t := ⟨_, getElem?_eq_getElem (by have := S.newLe; omega)⟩
    obtain ⟨tOld, hot⟩ : ∃ t, S.old.times[os]? = some t := ⟨_, getElem?_eq_getElem (by have := S.oldLe; omega)⟩
    rw [getElem?_take_of_lt (by omega), getElem?_take_of_lt (by omega), hnt, hot]
    dsimp only
    generalize hnext : (if before ascending tOld tNew then _ else _) = next
    obtain ⟨hput, hn, ho, hmore⟩ := put_turn hrec hschema (by omega) (by omega) hl hnt hot hnext.symm
    split_ifs with hl1
    · exact ⟨_, _, _, _, rfl, hl1 ▸ hput, by omega, by omega, fun h => absurd rfl h⟩
    · obtain ⟨rec', l', ns', os', heq, hput', hrest⟩ := ih hput.wf (hput.schema.trans hschema)
        (show next.2.1 ≤ newEnd by omega) (show next.2.2 ≤ oldEnd by omega) (show 0 < l - 1 by omega)
        (by have := hput.newLe; have := hput.oldLe; omega)
      exact ⟨rec', l', ns', os', heq, hput.trans hput', hrest⟩

end Loop

/-! ### The overlap merge -/

section Overlap

variable (S) {newPos oldPos newOpStart newOpEnd oldOpStart oldOpEnd limit : ℕ}

/-- The operating ranges `[newOpStart, newOpEnd)` and `[oldOpStart, oldOpEnd)` of an overlap merge:
the rows in front of them belong to one record and come before everything of the other, the rows
behind them belong to one record and come after everything of the other. -/
structure OpRanges (newPos oldPos newOpStart newOpEnd oldOpStart oldOpEnd : ℕ) : Prop where
  newFront : newPos ≤ newOpStart
  oldFront : oldPos ≤ oldOpStart
  newOp : newOpStart ≤ newOpEnd
  oldOp : oldOpStart ≤ oldOpEnd
  newBack : newOpEnd ≤ S.newRows
  oldBack : oldOpEnd ≤ S.oldRows
  front : (oldOpStart = oldPos ∧
      Precede ascending (S.new.times.extract newPos newOpStart) (S.old.times.extract oldPos S.oldRows)) ∨
    (newOpStart = newPos ∧
      Precede ascending (S.old.times.extract oldPos oldOpStart) (S.new.times.extract newPos S.newRows))
  back : (newOpEnd = S.newRows ∧
      Precede ascending (S.new.times.extract newPos newOpEnd) (S.old.times.extract oldOpEnd S.oldRows)) ∨
    (oldOpEnd = S.oldRows ∧
      Precede ascending (S.old.times.extract oldPos oldOpEnd) (S.new.times.extract newOpEnd S.newRows))

/-- `res` is `rec` with a front part of the merge of the two rests, all of it if the limit allows,
and the positions from which the merge goes on. -/
def Merges (rec : Record F V) (i j l : ℕ) (res : Option (Record F V × ℕ × ℕ)) : Prop :=
  ∃ rec' i' j' l', res = some (rec', i', j') ∧ S.Put rec rec' i j i' j' l l' ∧
    (l' ≠ 0 → i' = S.newRows ∧ j' = S.oldRows)

variable {S} {res : Option (Record F V × ℕ × ℕ)}

theorem Put.merges (h : S.Put rec rec1 i j i1 j1 l l1) (hres : S.Merges rec1 i1 j1 l1 res) :
    S.Merges rec i j l res := by
  obtain ⟨rec2, i2, j2, l2, heq, h2, hend⟩ := hres
  exact ⟨rec2, i2, j2, l2, heq, h.trans h2, hend⟩

theorem Put.merges_of_full (h : S.Put rec rec1 i j i1 j1 l 0) : S.Merges rec i j l (some (rec1, i1, j1)) :=
  ⟨_, _, _, _, rfl, h, fun h => absurd rfl h⟩

namespace OpRanges

variable (R : S.OpRanges newPos oldPos newOpStart newOpEnd oldOpStart oldOpEnd)

include R

/-- The rows of `new` in range come before the rows of `old` behind. -/
theorem backNew (h : newOpStart ≤ i) :
    Precede ascending (S.new.times.extract i newOpEnd) (S.old.times.extract oldOpEnd S.oldRows) := by
  rcases R.back with ⟨-, hb⟩ | ⟨hb, -⟩
  · exact hb.mono (extract_subset_extract _ (R.newFront.trans h) le_rfl)
  · rw [hb]
    exact precede_empty

theorem backOld (h : oldOpStart ≤ j) :
    Precede ascending (S.old.times.extract j oldOpEnd) (S.new.times.extract newOpEnd S.newRows) := by
  rcases R.back with ⟨hb, -⟩ | ⟨-, hb⟩
  · rw [hb]
    exact precede_empty
  · exact hb.mono (extract_subset_extract _ (R.oldFront.trans h) le_rfl)

theorem appendRecs_put (hrec : rec.WF) (hschema : rec.schema = S.schema) (hl : 0 < l) :
    ∃ rec' l' ns os, appendRecs ascending rec S.new S.old newOpStart newOpEnd oldOpStart oldOpEnd
        (S.new.times.take S.newRows) (S.old.times.take S.oldRows) l = some (rec', l', ns, os) ∧
      S.Put rec rec' newOpStart oldOpStart ns os l l' ∧ (l' ≠ 0 → ns = newOpEnd ∧ os = oldOpEnd) := by
  obtain ⟨rec1, l1, ns, os, heq, hput, hn, ho, hend⟩ :=
    appendRecsLoop_put R.newBack R.oldBack _ hrec hschema R.newOp R.oldOp hl le_rfl
  have hs := hput.schema.trans hschema
  have hns := hput.newLe
  have hos := hput.oldLe
  unfold appendRecs
  rw [heq]
  dsimp only
  split_ifs with h0 hlt hle hlt' hle'
  · subst h0
    exact ⟨_, _, _, _, rfl, hput, fun h => absurd rfl h⟩
  · -- rows of `new` left, more than allowed
    obtain rfl : os = oldOpEnd := (hend h0).resolve_left (by omega)
    exact ⟨_, _, _, _, rfl, hput.trans (put_new_limit hput.wf hs R.newBack hos.2 hle hn (R.backNew hns.1)),
      fun h => absurd rfl h⟩
  · obtain rfl : os = oldOpEnd := (hend h0).resolve_left (by omega)
    exact ⟨_, _, _, _, rfl, hput.trans (put_new hput.wf hs hn R.newBack hos.2 (by omega) (R.backNew hns.1)),
      fun _ => ⟨rfl, rfl⟩⟩
  · -- rows of `old` left, more than allowed
    obtain rfl : ns = newOpEnd := by omega
    exact ⟨_, _, _, _, rfl, hput.trans (put_old_limit hput.wf hs R.oldBack hns.2 hle' ho (R.backOld hos.1)),
      fun h => absurd rfl h⟩
  · obtain rfl : ns = newOpEnd := by omega
    exact ⟨_, _, _, _, rfl, hput.trans (put_old hput.wf hs ho R.oldBack hns.2 (by omega) (R.backOld hos.1)),
      fun _ => ⟨rfl, rfl⟩⟩
  · obtain rfl : ns = newOpEnd := by omega
    obtain rfl : os = oldOpEnd := by omega
    exact ⟨_, _, _, _, rfl, hput, fun _ => ⟨rfl, rfl⟩⟩

omit R in
theorem mergeRecordTail_merges (hrec : rec.WF) (hschema : rec.schema = S.schema) (l : ℕ) (hi : i ≤ S.newRows)
    (hj : j ≤ S.oldRows) (hend : j = S.oldRows ∨ i = S.newRows) :
    S.Merges rec i j l (some (mergeRecordTail rec S.new S.old i j S.newRows S.oldRows l)) := by
  unfold mergeRecordTail
  split_ifs with h hle hle
  · subst h
    exact (put_new_limit hrec hschema le_rfl hj hle hi precede_empty).merges_of_full
  · subst h
    exact ⟨_, _, _, l - (S.newRows - i), rfl, put_new hrec hschema hi le_rfl hj (by omega) precede_empty,
      fun _ => ⟨rfl, rfl⟩⟩
  · obtain rfl := hend.resolve_left h
    exact (put_old_limit hrec hschema le_rfl hi hle hj precede_empty).merges_of_full
  · obtain rfl := hend.resolve_left h
    exact ⟨_, _, _, l - (S.oldRows - j), rfl, put_old hrec hschema hj le_rfl hi (by omega) precede_empty,
      fun _ => ⟨rfl, rfl⟩⟩

theorem mergeRecordRest_merges (hrec : rec.WF) (hschema : rec.schema = S.schema) (hl : 0 < l) :
    S.Merges rec newOpStart oldOpStart l (mergeRecordRest ascending rec S.new S.old newOpStart newOpEnd oldOpStart
      oldOpEnd (S.new.times.take S.newRows) (S.old.times.take S.oldRows) S.newRows S.oldRows l) := by
  obtain ⟨rec1, l1, ns, os, heq, hput, hend⟩ := R.appendRecs_put hrec hschema hl
  unfold mergeRecordRest
  rw [heq]
  dsimp only
  split_ifs with h0
  · subst h0
    exact hput.merges_of_full
  · obtain ⟨rfl, rfl⟩ := hend h0
    exact hput.merges (mergeRecordTail_merges hput.wf (hput.schema.trans hschema) l1 R.newBack R.oldBack
      (R.back.elim (fun h => .inr h.1) fun h => .inl h.1))

end OpRanges

/-- **The overlap merge puts out a front part of the merge of the two rests.** -/
theorem mergeRecordOverlapImpl_merges
    (R : S.OpRanges newPos oldPos newOpStart (min newOpEnd S.newRows) oldOpStart (min oldOpEnd S.oldRows))
    (hrec : rec.WF)
    (hschema : rec.schema = S.schema) (hl : 0 < limit) :
    S.Merges rec newPos oldPos limit (mergeRecordOverlapImpl rec S.new S.old newOpStart newOpEnd oldOpStart oldOpEnd
      (S.new.times.take S.newRows) (S.old.times.take S.oldRows) newPos oldPos S.newRows S.oldRows limit ascending) := by
  obtain ⟨hnf, hof, hno, hoo, hnb, hob, hfront, -⟩ := id R
  have hn := hno.trans hnb
  have ho := hoo.trans hob
  unfold mergeRecordOverlapImpl
  split_ifs with h hle hle
  · -- rows of `new` in front, more than allowed
    have hf := hfront.resolve_right fun hf => by omega
    exact (put_new_limit hrec hschema hn (by omega) hle hnf hf.2).merges_of_full
  · have hf : Precede ascending (S.new.times.extract newPos newOpStart) (S.old.times.extract oldPos S.oldRows) := by
      rcases hfront with ⟨-, hf⟩ | ⟨hnp, -⟩
      · exact hf
      · rw [hnp, extract_of_le _ le_rfl]
        exact fun _ h => absurd h not_mem_nil
    subst h
    have hput : S.Put rec _ newPos oldOpStart newOpStart oldOpStart limit (limit - (newOpStart - newPos)) :=
      put_new hrec hschema hnf hn ho (by omega) hf
    exact hput.merges (R.mergeRecordRest_merges hput.wf (hput.schema.trans hschema) (by omega))
  · -- rows of `old` in front, more than allowed
    have hf := hfront.resolve_left fun hf => h hf.1
    exact (put_old_limit hrec hschema ho (by omega) hle hof hf.2).merges_of_full
  · obtain ⟨rfl, hf⟩ := hfront.resolve_left fun hf => h hf.1
    have hput : S.Put rec _ newOpStart oldPos newOpStart oldOpStart limit (limit - (oldOpStart - oldPos)) :=
      put_old hrec hschema hof ho hn (by omega) hf
    exact hput.merges (R.mergeRecordRest_merges hput.wf (hput.schema.trans hschema) (by omega))

end Overlap

end Sources

end Record

end GeminiTS
