import GeminiTS.Lib.Extract

/-!
# KeyedColumn — a column read as a function of its keys

A column of nullable values next to a list of distinct keys is the graph of a function on the keys
that is null everywhere else.

* `valueAt ks vs k` — the value at key `k`.
-/

namespace GeminiTS.Lib

open List

variable {K V : Type*}

/-- The pairs of keys and values of a function. -/
def graph (ks : List K) (g : K → Option V) : List (K × Option V) := ks.map fun k => (k, g k)

@[simp] theorem graph_nil (g : K → Option V) : graph [] g = [] := rfl

@[simp] theorem graph_cons (k : K) (ks : List K) (g : K → Option V) : graph (k :: ks) g = (k, g k) :: graph ks g := rfl

theorem graph_append (ks1 ks2 : List K) (g : K → Option V) :
    graph (ks1 ++ ks2) g = graph ks1 g ++ graph ks2 g := map_append

section

variable (ks : List K) (g : K → Option V)

@[simp] theorem map_fst_graph : (graph ks g).map Prod.fst = ks := by
  simp [graph, Function.comp_def]

@[simp] theorem map_snd_graph : (graph ks g).map Prod.snd = ks.map g := by
  simp [graph, Function.comp_def]

@[simp] theorem length_graph : (graph ks g).length = ks.length := length_map _

end

variable {ks : List K} {vs : List (Option V)}

theorem graph_congr {g h : K → Option V} (hgh : ∀ k ∈ ks, g k = h k) : graph ks g = graph ks h :=
  map_congr_left fun k hk => by rw [hgh k hk]

variable [DecidableEq K]

/-- The value of a column at a key; null at a key it does not have. -/
def valueAt (ks : List K) (vs : List (Option V)) (k : K) : Option V := ((ks.zip vs).lookup k).join

theorem valueAt_cons (k' : K) (ks : List K) (v : Option V) (vs : List (Option V)) (k : K) :
    valueAt (k' :: ks) (v :: vs) k = if k = k' then v else valueAt ks vs k := by
  by_cases h : k = k'
  · subst h
    simp [valueAt]
  · simp [valueAt, lookup_cons, beq_false_of_ne h, h]

theorem valueAt_of_notMem {k : K} (h : k ∉ ks) : valueAt ks vs k = none := by
  have hnone : (ks.zip vs).lookup k = none := by
    rw [lookup_eq_none_iff]
    intro p hp
    have hmem : p.1 ∈ ks := (of_mem_zip hp).1
    simpa using fun heq : k = p.1 => h (heq ▸ hmem)
  rw [valueAt, hnone]
  rfl

theorem valueAt_map {g : K → Option V} {k : K} (hk : k ∈ ks) : valueAt ks (ks.map g) k = g k := by
  induction ks with
  | nil => simp at hk
  | cons k' ks ih =>
    rw [map_cons, valueAt_cons]
    split_ifs with h
    · rw [h]
    · rcases mem_cons.mp hk with rfl | hk
      · exact absurd rfl h
      · exact ih hk

theorem valueAt_replicate_none (n : ℕ) (k : K) : valueAt ks (replicate n (none : Option V)) k = none := by
  induction ks generalizing n with
  | nil => rfl
  | cons k' ks ih =>
    cases n with
    | zero => rfl
    | succ n =>
      rw [replicate_succ, valueAt_cons, ih]
      split_ifs <;> rfl

section

variable (hk : ks.Nodup) (hl : vs.length = ks.length)

include hk hl

theorem zip_eq_graph : ks.zip vs = graph ks (valueAt ks vs) := by
  induction ks generalizing vs with
  | nil => rfl
  | cons k ks ih =>
    cases vs with
    | nil => simp at hl
    | cons v vs =>
      rw [nodup_cons] at hk
      rw [zip_cons_cons, graph_cons, valueAt_cons, if_pos rfl, ih hk.2 (by simpa using hl)]
      congr 1
      refine graph_congr fun k' hk' => ?_
      rw [valueAt_cons, if_neg fun heq : k' = k => hk.1 (heq ▸ hk')]

theorem getElem?_valueAt {i : ℕ} {k : K} (hi : ks[i]? = some k) : valueAt ks vs k = vs[i]?.join := by
  have hlt : i < vs.length := by
    rw [hl]
    exact (List.getElem?_eq_some_iff.mp hi).1
  have hz : (ks.zip vs)[i]? = some (k, vs[i]) := getElem?_zip_eq_some.mpr ⟨hi, getElem?_eq_getElem hlt⟩
  rw [zip_eq_graph hk hl, graph, getElem?_map, hi, Option.map_some] at hz
  rw [getElem?_eq_getElem hlt]
  exact congrArg Prod.snd (Option.some.inj hz)

theorem extract_zip_eq_graph (a b : ℕ) :
    (ks.extract a b).zip (vs.extract a b) = graph (ks.extract a b) (valueAt ks vs) := by
  have hz : (ks.zip vs).extract a b = (graph ks (valueAt ks vs)).extract a b := by
    rw [zip_eq_graph hk hl]
  rw [graph, ← map_extract] at hz
  rw [graph, ← hz]
  simp only [extract_eq_take_drop, zip_eq_zipWith, drop_zipWith, take_zipWith]

end

end GeminiTS.Lib
