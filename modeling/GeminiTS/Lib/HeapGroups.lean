import GeminiTS.Lib.Assoc
import GeminiTS.Lib.Heap

/-!
# HeapGroups — merging feeds of groups through a heap

Every feed lists items with strictly ascending group names. The heap holds the feeds, ordered by
the group of their current item and then by its rank; items of one group leave the heap one after
the other.

* `Feed`, `less` — a feed with its current item, and the order of the heap.
-/

namespace GeminiTS.Lib

open List Heap

variable {α β ι τ : Type*}

/-- A feed: where it comes from, its current item and the items after it. -/
structure Feed (α : Type*) where
  source : ℕ
  cur : α
  rest : List α
deriving DecidableEq, Repr

namespace Feed

/-- The feed at its next item. -/
def next (s : Feed α) : Option (Feed α) :=
  match s.rest with
  | [] => none
  | a :: rest => some ⟨s.source, a, rest⟩

/-- The items still to come, with their source. -/
def items (s : Feed α) : List (ℕ × α) := (s.cur :: s.rest).map (s.source, ·)

/-- Apply a function to every item. -/
def map (g : α → β) (s : Feed α) : Feed β := ⟨s.source, g s.cur, s.rest.map g⟩

theorem next_map (g : α → β) (s : Feed α) : (s.map g).next = s.next.map (map g) := by
  obtain ⟨k, a, rest⟩ := s
  cases rest <;> rfl

section Heap

variable [LinearOrder ι] [LinearOrder τ] (key : α → ι × τ)

/-- By group, then by rank. -/
def less (a b : Feed α) : Bool :=
  if (key a.cur).1 ≠ (key b.cur).1 then (key a.cur).1 < (key b.cur).1
  else (key a.cur).2 < (key b.cur).2

theorem less_eq (a b : Feed α) : less key a b = decide (toLex (key a.cur) < toLex (key b.cur)) := by
  rw [less, Bool.eq_iff_iff, decide_eq_true_eq, Prod.Lex.toLex_lt_toLex]
  split_ifs with h
  · rw [decide_eq_true_eq]
    exact ⟨.inl, fun h' => h'.resolve_right fun hc => h hc.1⟩
  · rw [not_not] at h
    rw [decide_eq_true_eq, h]
    exact ⟨fun hlt => .inr ⟨rfl, hlt⟩, fun h' => (h'.resolve_left (lt_irrefl _)).2⟩

/-- Put a feed back at its next item; a feed at its end is dropped. -/
def pushNext (h : List (Feed α)) (s : Feed α) : List (Feed α) :=
  match s.next with
  | none => h
  | some s => Heap.push (less key) h s

/-- Number of items still to come. -/
def size (h : List (Feed α)) : ℕ := (h.map fun s => s.rest.length + 1).sum

variable {h : List (Feed α)}

theorem size_perm {h' : List (Feed α)} (hp : h.Perm h') : size h = size h' := (hp.map _).sum_eq

theorem size_pushNext {h' : List (Feed α)} {s : Feed α}
    (hpop : pop (less key) h = some (s, h')) : size (pushNext key h' s) + 1 = size h := by
  have hsize : size h = s.rest.length + 1 + size h' := by
    rw [← size_perm (pop_perm _ hpop)]
    rfl
  obtain ⟨k, a, rest⟩ := s
  cases rest with
  | nil =>
    simp only [length_nil] at hsize
    simp only [pushNext, next]
    omega
  | cons b rest =>
    have hpush : size (push (less key) h' ⟨k, b, rest⟩) = rest.length + 1 + size h' := by
      rw [size_perm (push_perm _ h' _)]
      rfl
    simp only [length_cons] at hsize
    simp only [pushNext, next]
    omega

/-- Take the items of group `g`, as far as they come first; the first item of another group is put
back. -/
def collect (g : ι) (h : List (Feed α)) : List (ℕ × α) × List (Feed α) :=
  match _hpop : Heap.pop (less key) h with
  | none => ([], h)
  | some (s, h') =>
    if (key s.cur).1 = g then
      let (items, h'') := collect g (pushNext key h' s)
      ((s.source, s.cur) :: items, h'')
    else ([], Heap.push (less key) h' s)
termination_by size h
decreasing_by
  have := size_pushNext key ‹_›
  omega

theorem size_collect (g : ι) (h : List (Feed α)) : size (collect key g h).2 ≤ size h := by
  fun_induction collect key g h with
  | case1 => exact le_rfl
  | case2 h s h' hpop hg items h'' heq ih =>
    have hsize := size_pushNext key hpop
    have hle : size h'' ≤ size (pushNext key h' s) := by simpa only [heq] using ih
    exact hle.trans (by omega)
  | case3 h s h' hpop hg =>
    rw [size_perm (push_perm _ h' s), size_perm (pop_perm _ hpop)]

/-- Take all items, group by group. -/
def groups (h : List (Feed α)) : List (ι × List (ℕ × α)) :=
  match _hpop : Heap.pop (less key) h with
  | none => []
  | some (s, h') =>
    let g := (key s.cur).1
    let rest := collect key g (pushNext key h' s)
    (g, (s.source, s.cur) :: rest.1) :: groups rest.2
termination_by size h
decreasing_by
  have := size_pushNext key ‹_›
  have := size_collect key (key s.cur).1 (pushNext key h' s)
  omega

theorem collect_eq (g : ι) (h : List (Feed α)) : collect key g h =
    match pop (less key) h with
    | none => ([], h)
    | some (s, h') =>
      if (key s.cur).1 = g then
        ((s.source, s.cur) :: (collect key g (pushNext key h' s)).1, (collect key g (pushNext key h' s)).2)
      else ([], push (less key) h' s) := by
  rw [collect]
  split <;> rename_i hpop <;> rw [hpop]

theorem groups_eq (h : List (Feed α)) : groups key h =
    match pop (less key) h with
    | none => []
    | some (s, h') =>
      ((key s.cur).1, (s.source, s.cur) :: (collect key (key s.cur).1 (pushNext key h' s)).1) ::
        groups key (collect key (key s.cur).1 (pushNext key h' s)).2 := by
  rw [groups]
  split <;> rename_i hpop <;> rw [hpop]

/-- The items still to come. -/
def remaining (h : List (Feed α)) : List (ℕ × α) := h.flatMap items

/-- The heap order holds and every feed has ascending groups. -/
structure Ready (h : List (Feed α)) : Prop where
  heap : Heap.IsHeap (fun s : Feed α => toLex (key s.cur)) h
  ascending : ∀ s ∈ h, ((s.cur :: s.rest).map fun a => (key a).1).Pairwise (· < ·)

variable {key}

omit [LinearOrder ι] [LinearOrder τ] in
theorem mem_remaining {x : ℕ × α} : x ∈ remaining h ↔ ∃ s ∈ h, x.1 = s.source ∧ x.2 ∈ s.cur :: s.rest := by
  obtain ⟨k, a⟩ := x
  simp only [remaining, mem_flatMap, items, mem_map, Prod.mk.injEq]
  refine exists_congr fun s => and_congr_right fun _ => ⟨?_, ?_⟩
  · rintro ⟨a', ha', rfl, rfl⟩
    exact ⟨rfl, ha'⟩
  · rintro ⟨rfl, ha⟩
    exact ⟨a, ha, rfl, rfl⟩

theorem init_ready (hasc : ∀ s ∈ h, ((s.cur :: s.rest).map fun a => (key a).1).Pairwise (· < ·)) :
    Ready key (init (less key) h) :=
  ⟨init_spec (less_eq key) h, fun s hs => hasc s ((init_perm _ h).mem_iff.mp hs)⟩

section Pop

variable {h h' : List (Feed α)} {s : Feed α}

theorem remaining_pushNext (hpop : pop (less key) h = some (s, h')) :
    (remaining h).Perm ((s.source, s.cur) :: remaining (pushNext key h' s)) := by
  have hperm : (remaining h).Perm (s.items ++ remaining h') := ((pop_perm _ hpop).symm.flatMap_right items)
  refine hperm.trans ?_
  obtain ⟨k, a, rest⟩ := s
  cases rest with
  | nil => exact .refl _
  | cons b rest =>
    refine List.Perm.cons _ ?_
    exact ((push_perm (less key) h' ⟨k, b, rest⟩).flatMap_right items).symm

theorem Ready.push (hr : Ready key h') (hs : ((s.cur :: s.rest).map fun a => (key a).1).Pairwise (· < ·)) :
    Ready key (push (less key) h' s) := by
  refine ⟨push_spec (less_eq key) hr.heap s, fun s' hs' => ?_⟩
  rcases mem_cons.mp ((push_perm _ h' s).mem_iff.mp hs') with rfl | hs'
  · exact hs
  · exact hr.ascending s' hs'

theorem Ready.pop (hr : Ready key h) (hpop : pop (less key) h = some (s, h')) :
    Ready key h' ∧ ((s.cur :: s.rest).map fun a => (key a).1).Pairwise (· < ·) := by
  have hmem : ∀ {s'}, s' ∈ s :: h' ↔ s' ∈ h := (pop_perm _ hpop).mem_iff
  exact ⟨⟨(pop_spec (less_eq key) hr.heap hpop).1, fun s' hs' =>
    hr.ascending s' (hmem.mp (mem_cons_of_mem _ hs'))⟩,
    hr.ascending s (hmem.mp mem_cons_self)⟩

theorem Ready.pushNext (hr : Ready key h) (hpop : Heap.pop (less key) h = some (s, h')) :
    Ready key (pushNext key h' s) := by
  obtain ⟨hr', hs⟩ := hr.pop hpop
  obtain ⟨k, a, rest⟩ := s
  cases rest with
  | nil => exact hr'
  | cons b rest => exact hr'.push hs.of_cons

/-- No item still to come is of an earlier group than the one taken. -/
theorem Ready.pop_le (hr : Ready key h) (hpop : Heap.pop (less key) h = some (s, h')) :
    ∀ x ∈ remaining h, (key s.cur).1 ≤ (key x.2).1 := by
  intro x hx
  obtain ⟨s', hs', -, hx⟩ := mem_remaining.mp hx
  have hhead : (key s.cur).1 ≤ (key s'.cur).1 := by
    rcases mem_cons.mp ((Heap.pop_perm _ hpop).mem_iff.mpr hs') with rfl | hs''
    · exact le_rfl
    · exact Prod.Lex.monotone_fst _ _ ((Heap.pop_spec (less_eq key) hr.heap hpop).2 s' hs'')
  refine hhead.trans ?_
  rcases mem_cons.mp hx with heq | hx
  · rw [heq]
  · exact ((pairwise_cons.mp (hr.ascending s' hs')).1 _ (mem_map_of_mem hx)).le

end Pop

/-- What `collect` takes and leaves. -/
structure Collected (key : α → ι × τ) (g : ι) (h : List (Feed α)) (r : List (ℕ × α) × List (Feed α)) : Prop where
  ready : Ready key r.2
  perm : (remaining h).Perm (r.1 ++ remaining r.2)
  taken : ∀ x ∈ r.1, (key x.2).1 = g
  left : ∀ x ∈ remaining r.2, g < (key x.2).1

theorem collect_spec {g : ι} (hr : Ready key h)
    (hg : ∀ x ∈ remaining h, g ≤ (key x.2).1) : Collected key g h (collect key g h) := by
  fun_induction collect key g h with
  | case1 h hpop =>
    obtain rfl := (Heap.pop_eq_none _).mp hpop
    exact ⟨hr, .refl _, by simp, by simp [remaining]⟩
  | case2 h s h' hpop hs items h'' heq ih =>
    have hperm := remaining_pushNext hpop
    have ih := ih (hr.pushNext hpop) fun x hx => hg x (hperm.mem_iff.mpr (mem_cons_of_mem _ hx))
    rw [heq] at ih
    exact ⟨ih.ready, hperm.trans (ih.perm.cons _), forall_mem_cons.mpr ⟨hs, ih.taken⟩, ih.left⟩
  | case3 h s h' hpop hs =>
    -- the least item is of a later group, and so are all others
    obtain ⟨hr', hasc⟩ := hr.pop hpop
    have hperm : (remaining (push (less key) h' s)).Perm (remaining h) :=
      ((push_perm _ h' s).trans (pop_perm _ hpop)).flatMap_right items
    refine ⟨hr'.push hasc, hperm.symm, by simp, fun x hx => ?_⟩
    have hmem : (s.source, s.cur) ∈ remaining h := mem_remaining.mpr
      ⟨s, (pop_perm _ hpop).mem_iff.mp mem_cons_self, rfl, mem_cons_self⟩
    exact (lt_of_le_of_ne (hg _ hmem) (Ne.symm hs)).trans_le (hr.pop_le hpop x (hperm.mem_iff.mp hx))

/-- What `groups` yields. -/
structure Grouped (key : α → ι × τ) (h : List (Feed α)) (gs : List (ι × List (ℕ × α))) : Prop where
  ascending : (gs.map Prod.fst).Pairwise (· < ·)
  perm : (remaining h).Perm (gs.flatMap Prod.snd)
  ne_nil : ∀ p ∈ gs, p.2 ≠ []
  member : ∀ p ∈ gs, ∀ x ∈ p.2, (key x.2).1 = p.1

/-- **Groups come out in ascending order, each with exactly its items.** -/
theorem groups_spec (hr : Ready key h) : Grouped key h (groups key h) := by
  fun_induction groups key h with
  | case1 h hpop =>
    obtain rfl := (pop_eq_none _).mp hpop
    exact ⟨.nil, .refl _, by simp, by simp⟩
  | case2 h s h' hpop g rest ih =>
    have hperm := remaining_pushNext hpop
    have hcol := collect_spec (hr.pushNext hpop) fun x hx =>
      hr.pop_le hpop x (hperm.mem_iff.mpr (mem_cons_of_mem _ hx))
    have ih := ih hcol.ready
    refine ⟨?_, ?_, forall_mem_cons.mpr ⟨cons_ne_nil _ _, ih.ne_nil⟩,
      forall_mem_cons.mpr ⟨forall_mem_cons.mpr ⟨rfl, hcol.taken⟩, ih.member⟩⟩
    · rw [map_cons]
      refine pairwise_cons.mpr ⟨fun g' hg' => ?_, ih.ascending⟩
      obtain ⟨p, hp, rfl⟩ := mem_map.mp hg'
      obtain ⟨x, hx⟩ := exists_mem_of_ne_nil _ (ih.ne_nil p hp)
      rw [← ih.member p hp x hx]
      exact hcol.left x (ih.perm.mem_iff.mpr (mem_flatMap.mpr ⟨p, hp, hx⟩))
    · refine hperm.trans ?_
      exact (hcol.perm.trans (ih.perm.append_left _)).cons _

/-- The items of one group. -/
def itemsOf (g : ι) (gs : List (ι × List (ℕ × α))) : List (ℕ × α) := (gs.lookup g).getD []

omit [LinearOrder τ] in
theorem Grouped.itemsOf_perm {gs : List (ι × List (ℕ × α))} (hg : Grouped key h gs) (g : ι) :
    (itemsOf g gs).Perm ((remaining h).filter fun x => (key x.2).1 = g) := by
  refine List.Perm.trans ?_ (hg.perm.filter _).symm
  obtain ⟨hasc, -, -, hmem⟩ := hg
  induction gs with
  | nil => exact .refl _
  | cons p gs ih =>
    rw [map_cons, pairwise_cons] at hasc
    rw [flatMap_cons, filter_append, itemsOf, lookup_cons]
    by_cases hp : g = p.1
    · subst hp
      have hfirst : p.2.filter (fun x => (key x.2).1 = p.1) = p.2 :=
        filter_eq_self.mpr fun x hx => by simpa using hmem p (by simp) x hx
      have hrest : (gs.flatMap Prod.snd).filter (fun x => (key x.2).1 = p.1) = [] := by
        refine filter_eq_nil_iff.mpr fun x hx => ?_
        obtain ⟨q, hq, hx⟩ := mem_flatMap.mp hx
        have hlt := hasc.1 q.1 (mem_map_of_mem hq)
        rw [hmem q (mem_cons_of_mem _ hq) x hx]
        simpa using hlt.ne'
      rw [hfirst, hrest, append_nil, beq_self_eq_true]
      exact .refl _
    · have hfirst : p.2.filter (fun x => (key x.2).1 = g) = [] := by
        refine filter_eq_nil_iff.mpr fun x hx => ?_
        rw [hmem p (by simp) x hx]
        simpa using Ne.symm hp
      rw [hfirst, beq_false_of_ne hp]
      exact ih hasc.2 fun q hq => hmem q (mem_cons_of_mem _ hq)

section Map

variable {k : β → ι × τ} {f : α → β} (hf : ∀ a, k (f a) = key a)

include hf

theorem less_map (a b : Feed α) : less k (a.map f) (b.map f) = less key a b := by
  simp only [less, map, hf]

theorem pushNext_map (h : List (Feed α)) (s : Feed α) :
    pushNext k (h.map (map f)) (s.map f) = (pushNext key h s).map (map f) := by
  rw [pushNext, pushNext, next_map]
  cases s.next with
  | none => rfl
  | some s => exact push_map (less_map hf) h s

theorem collect_map (g : ι) (h : List (Feed α)) : collect k g (h.map (map f)) =
      ((collect key g h).1.map (Prod.map id f), (collect key g h).2.map (map f)) := by
  have hmap := pop_map (less_map hf)
  have hcur : ∀ s : Feed α, k (s.map f).cur = key s.cur := fun s => hf s.cur
  fun_induction collect key g h with
  | case1 h hpop =>
    rw [collect_eq, hmap, hpop]
    rfl
  | case2 h s h' hpop hs items h'' heq ih =>
    rw [heq] at ih
    rw [collect_eq, hmap, hpop]
    simp only [Option.map_some, hcur, if_pos hs, pushNext_map hf, ih]
    rfl
  | case3 h s h' hpop hs =>
    rw [collect_eq, hmap, hpop]
    simp only [Option.map_some, hcur, if_neg hs, push_map (less_map hf)]
    rfl

theorem groups_map (h : List (Feed α)) :
    groups k (h.map (map f)) = (groups key h).map fun p => (p.1, p.2.map (Prod.map id f)) := by
  have hmap := pop_map (less_map hf)
  have hcur : ∀ s : Feed α, k (s.map f).cur = key s.cur := fun s => hf s.cur
  fun_induction groups key h with
  | case1 h hpop =>
    rw [groups_eq, hmap, hpop]
    rfl
  | case2 h s h' hpop g rest ih =>
    rw [groups_eq, hmap, hpop]
    simp only [Option.map_some, hcur, pushNext_map hf, collect_map hf]
    rw [ih]
    rfl

end Map

end Heap

end Feed

end GeminiTS.Lib
