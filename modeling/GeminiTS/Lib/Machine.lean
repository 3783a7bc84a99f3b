import Mathlib

/-!
# Machine — runs of a machine that may fail

`step : S → E → Option S` is a machine that takes events and has no result where it fails.

* `run` — the state after a list of events.
-/

namespace GeminiTS.Lib

open List

variable {S E : Type*} (step : S → E → Option S)

/-- The state after the events. -/
def run (s : S) : List E → Option S
  | [] => some s
  | e :: es => (step s e).bind fun s => run s es

variable {I : S → Prop} {es : List E} (s : S)

theorem run_append (es es' : List E) : run step s (es ++ es') = (run step s es).bind fun s => run step s es' := by
  induction es generalizing s with
  | nil => rfl
  | cons e es ih =>
    rw [cons_append, run, run, Option.bind_assoc]
    congr 1
    funext s'
    exact ih s'

theorem run_concat (es : List E) (e : E) : run step s (es ++ [e]) = (run step s es).bind fun s => step s e := by
  rw [run_append]
  congr 1
  funext s'
  rw [run]
  cases step s' e <;> rfl

theorem run_take_succ {n : ℕ} {e : E} (h : es[n]? = some e) :
    run step s (es.take (n + 1)) = (run step s (es.take n)).bind fun s => step s e := by
  rw [take_add_one, h]
  exact run_concat step s (es.take n) e

variable {step}

theorem run_invariant (hstep : ∀ s, ∀ e ∈ es, I s → ∃ s', step s e = some s' ∧ I s') {s : S} (hs : I s) :
    ∃ s', run step s es = some s' ∧ I s' := by
  induction es generalizing s with
  | nil => exact ⟨s, rfl, hs⟩
  | cons e es ih =>
    obtain ⟨s1, h1, hI⟩ := hstep s e mem_cons_self hs
    obtain ⟨s', hrun, hI'⟩ := ih (fun s e he => hstep s e (mem_cons_of_mem _ he)) hI
    exact ⟨s', by rw [run, h1, Option.bind_some, hrun], hI'⟩

theorem run_preserves (hstep : ∀ s e s', I s → step s e = some s' → I s') {s s' : S} (hs : I s)
    (hrun : run step s es = some s') : I s' := by
  induction es generalizing s with
  | nil =>
    cases hrun
    exact hs
  | cons e es ih =>
    obtain ⟨s1, h1, hrun⟩ := Option.bind_eq_some_iff.mp hrun
    exact ih (hstep s e s1 hs h1) hrun

end GeminiTS.Lib
