import GeminiTS.Lib.Bytes

/-!
# FrontReader — readers that take bytes off the front

A reader is a state over the bytes that are left and may fail.

* `Reads p bs x` — in front of anything, `p` takes `bs` and gives `x`.
-/

namespace GeminiTS.Lib

open List

variable {ε α β : Type}

abbrev FrontReader (ε α : Type) := StateT Bytes (Except ε) α

/-- The next `n` bytes. -/
def takeBytes (n : ℕ) (short : ℕ → ε) : FrontReader ε Bytes := fun s =>
  if s.length < n then .error (short s.length) else .ok (s.take n, s.drop n)

/-- Fails if less than `n` bytes are left. -/
def require (n : ℕ) (short : ℕ → ε) : FrontReader ε Unit := fun s =>
  if s.length < n then .error (short s.length) else .ok ((), s)

/-- The same reader again and again. -/
def times (p : FrontReader ε α) : ℕ → FrontReader ε (List α)
  | 0 => pure []
  | n + 1 => do
    let x ← p
    let xs ← times p n
    pure (x :: xs)

/-- A reader for each of the given elements. -/
def readEach (p : α → FrontReader ε β) : List α → FrontReader ε (List β)
  | [] => pure []
  | a :: as => do
    let x ← p a
    let xs ← readEach p as
    pure (x :: xs)

theorem except_bind_eq_ok {x : Except ε α} {f : α → Except ε β} {y : β} :
    (x >>= f) = .ok y ↔ ∃ a, x = .ok a ∧ f a = .ok y := by
  cases x with
  | error e =>
    constructor
    · intro h
      cases h
    · rintro ⟨_, h, -⟩
      cases h
  | ok a =>
    constructor
    · intro h
      exact ⟨a, rfl, h⟩
    · rintro ⟨_, h, h'⟩
      cases h
      exact h'

theorem bind_eq_ok {p : FrontReader ε α} {f : α → FrontReader ε β} {s r' : Bytes} {y : β} :
    (p >>= f) s = .ok (y, r') ↔ ∃ x r, p s = .ok (x, r) ∧ f x r = .ok (y, r') := by
  show (p s >>= fun a => f a.1 a.2) = .ok (y, r') ↔ _
  rw [except_bind_eq_ok, Prod.exists]

/-! ### Reading what was written -/

def Reads (p : FrontReader ε α) (bs : Bytes) (x : α) : Prop := ∀ t, p (bs ++ t) = .ok (x, t)

namespace Reads

theorem pure (x : α) : Reads (Pure.pure x : FrontReader ε α) [] x := fun _ => rfl

variable {p : FrontReader ε α}

variable {bs : Bytes} {x : α}

theorem bind {f : α → FrontReader ε β} {bs' : Bytes} {y : β} (hp : Reads p bs x) (hf : Reads (f x) bs' y) :
    Reads (p >>= f) (bs ++ bs') y := by
  intro t
  rw [bind_eq_ok, append_assoc]
  exact ⟨x, bs' ++ t, hp (bs' ++ t), hf t⟩

theorem map (hp : Reads p bs x) (g : α → β) : Reads (g <$> p) bs (g x) := by
  intro t
  show (p (bs ++ t) >>= fun a => Except.ok (g a.1, a.2)) = .ok (g x, t)
  rw [hp t]
  rfl

theorem bind_pure (hp : Reads p bs x) (g : α → β) : Reads (p >>= fun a => Pure.pure (g a)) bs (g x) := by
  intro t
  exact bind_eq_ok.mpr ⟨x, t, hp t, rfl⟩

theorem takeBytes (bs : Bytes) (short : ℕ → ε) : Reads (takeBytes bs.length short) bs bs := by
  intro t
  rw [Lib.takeBytes, length_append, if_neg (by omega), take_left, drop_left]

theorem require_bind (hp : Reads p bs x) {n : ℕ} (hn : n ≤ bs.length) (short : ℕ → ε) :
    Reads (require n short >>= fun _ => p) bs x := by
  intro t
  have hlen : require n short (bs ++ t) = .ok ((), bs ++ t) := if_neg (by rw [length_append]; omega)
  exact bind_eq_ok.mpr ⟨(), bs ++ t, hlen, hp t⟩

theorem times {enc : α → Bytes} {xs : List α} (h : ∀ x ∈ xs, Reads p (enc x) x) :
    Reads (times p xs.length) (xs.flatMap enc) xs := by
  induction xs with
  | nil => exact Reads.pure []
  | cons x xs ih =>
    rw [flatMap_cons]
    apply (h x mem_cons_self).bind
    rw [← append_nil (xs.flatMap enc)]
    apply (ih fun y hy => h y (mem_cons_of_mem _ hy)).bind
    exact Reads.pure (x :: xs)

/-- Each element reads its part, and the results are as described. -/
theorem readEach {γ : Type} {p : α → FrontReader ε β} {enc : γ → Bytes} {R : γ → β → Prop} {as : List α}
    {ys : List γ} (h : List.Forall₂ (fun a y => ∃ x, Reads (p a) (enc y) x ∧ R y x) as ys) :
    ∃ xs, Reads (readEach p as) (ys.flatMap enc) xs ∧ List.Forall₂ R ys xs := by
  induction h with
  | nil => exact ⟨[], Reads.pure [], .nil⟩
  | @cons a y as ys hay _ ih =>
    obtain ⟨x, hx, hR⟩ := hay
    obtain ⟨xs, hxs, hRs⟩ := ih
    refine ⟨x :: xs, ?_, .cons hR hRs⟩
    exact hx.bind (hxs.bind_pure (x :: ·))

end Reads

/-! ### What stands behind does not matter -/

def FromFront (p : FrontReader ε α) : Prop := ∀ s x r t, p s = .ok (x, r) → p (s ++ t) = .ok (x, r ++ t)

namespace FromFront

theorem pure (x : α) : FromFront (Pure.pure x : FrontReader ε α) := by
  intro s y r t h
  cases h
  rfl

variable {p : FrontReader ε α}

theorem bind {f : α → FrontReader ε β} (hp : FromFront p) (hf : ∀ x, FromFront (f x)) : FromFront (p >>= f) := by
  intro s y r' t h
  obtain ⟨x, r, hx, hy⟩ := bind_eq_ok.mp h
  exact bind_eq_ok.mpr ⟨x, r ++ t, hp s x r t hx, hf x r y r' t hy⟩

theorem map (hp : FromFront p) (g : α → β) : FromFront (g <$> p) := by
  intro s y r t h
  obtain ⟨x, r, hx, hy⟩ := bind_eq_ok.mp (show (p >>= fun x => Pure.pure (g x)) s = _ from h)
  cases hy
  show (p >>= fun x => Pure.pure (g x)) (s ++ t) = _
  exact bind_eq_ok.mpr ⟨x, r ++ t, hp s x r t hx, rfl⟩

variable (n : ℕ) (short : ℕ → ε)

theorem takeBytes : FromFront (takeBytes n short) := by
  intro s x r t h
  rw [Lib.takeBytes] at h ⊢
  split_ifs at h with hlen
  cases h
  have hle := not_lt.mp hlen
  rw [if_neg (by rw [length_append]; omega), take_append_of_le_length hle, drop_append_of_le_length hle]

theorem require : FromFront (require n short) := by
  intro s x r t h
  rw [Lib.require] at h ⊢
  split_ifs at h with hlen
  cases h
  exact if_neg (by rw [length_append]; omega)

theorem times (hp : FromFront p) (n : ℕ) : FromFront (times p n) := by
  induction n with
  | zero => exact FromFront.pure []
  | succ n ih => exact hp.bind fun _ => ih.bind fun _ => FromFront.pure _

/-- Of what a reader takes entirely, no part at the front is enough for it. -/
theorem cut (hp : FromFront p) {s : Bytes} {x : α} (h : p s = .ok (x, [])) {k : ℕ}
    (hk : k < s.length) : ∃ e, p (s.take k) = .error e := by
  cases hcut : p (s.take k) with
  | error e => exact ⟨e, rfl⟩
  | ok a =>
    obtain ⟨y, r⟩ := a
    have hall := hp _ y r (s.drop k) hcut
    rw [take_append_drop, h] at hall
    have hnil : r ++ s.drop k = [] := (Prod.mk.inj (Except.ok.inj hall)).2.symm
    have hdrop := congrArg length (append_eq_nil_iff.mp hnil).2
    rw [length_drop, length_nil] at hdrop
    omega

end FromFront

/-! ### What a reader can give -/

def Gives (p : FrontReader ε α) (P : α → Prop) : Prop := ∀ s x r, p s = .ok (x, r) → P x

namespace Gives

variable {P : α → Prop} {p : FrontReader ε α}

theorem pure {x : α} (h : P x) : Gives (Pure.pure x : FrontReader ε α) P := by
  intro s y r hy
  cases hy
  exact h

theorem bind {f : α → FrontReader ε β} {Q : β → Prop} (hp : Gives p P)
    (hf : ∀ x, P x → Gives (f x) Q) : Gives (p >>= f) Q := by
  intro s y r' h
  obtain ⟨x, r, hx, hy⟩ := bind_eq_ok.mp h
  exact hf x (hp s x r hx) r y r' hy

theorem any (p : FrontReader ε α) : Gives p fun _ => True := fun _ _ _ _ => trivial

theorem throw (e : ε) : Gives (MonadExcept.throw e : FrontReader ε α) P := fun _ _ _ h => by cases h

theorem map {P : β → Prop} {g : α → β} (hp : Gives p fun x => P (g x)) : Gives (g <$> p) P := by
  intro s y r h
  obtain ⟨x, r', hx, hy⟩ := bind_eq_ok.mp (show (p >>= fun x => Pure.pure (g x)) s = _ from h)
  cases hy
  exact hp s x r hx

theorem takeBytes (n : ℕ) (short : ℕ → ε) : Gives (takeBytes n short) fun bs => bs.length = n := by
  intro s x r h
  rw [Lib.takeBytes] at h
  split_ifs at h with hlen
  cases h
  exact length_take_of_le (not_lt.mp hlen)

theorem times (hp : Gives p P) (n : ℕ) : Gives (times p n) fun xs => xs.length = n ∧ ∀ x ∈ xs, P x := by
  induction n with
  | zero => exact Gives.pure ⟨rfl, fun _ h => absurd h not_mem_nil⟩
  | succ n ih =>
    refine hp.bind fun x hx => ih.bind fun xs hxs => Gives.pure ⟨?_, ?_⟩
    · rw [length_cons, hxs.1]
    · exact forall_mem_cons.mpr ⟨hx, hxs.2⟩

theorem readEach {p : α → FrontReader ε β} {R : α → β → Prop} (hp : ∀ a, Gives (p a) (R a)) (as : List α) :
    Gives (readEach p as) (List.Forall₂ R as) := by
  induction as with
  | nil => exact Gives.pure .nil
  | cons a as ih => exact (hp a).bind fun x hx => ih.bind fun xs hxs => Gives.pure (.cons hx hxs)

end Gives

/-! ### Numbers -/

/-- A number of `w` bytes. -/
def readUint (w : ℕ) (short : ℕ → ε) : FrontReader ε ℕ := beNat <$> takeBytes w short

theorem Reads.uint {w n : ℕ} (h : n < 256 ^ w) (short : ℕ → ε) : Reads (readUint w short) (beBytes w n) n := by
  have hread := (Reads.takeBytes (beBytes w n) short).map beNat
  rwa [length_beBytes, beNat_beBytes h] at hread

theorem Gives.uint (w : ℕ) (short : ℕ → ε) : Gives (readUint w short) fun n => n < 256 ^ w := by
  have hbytes : Gives (Lib.takeBytes w short) fun bs => beNat bs < 256 ^ w := by
    intro s bs r hbs
    have hlt := beNat_lt bs
    rwa [Gives.takeBytes w short s bs r hbs] at hlt
  exact hbytes.map

/-- A number of two bytes. -/
def readUint16 (short : ℕ → ε) : FrontReader ε ℕ := beNat <$> takeBytes 2 short

theorem Reads.uint16 {n : ℕ} (h : n < 2 ^ 16) (short : ℕ → ε) : Reads (readUint16 short) (beBytes 2 n) n :=
  Reads.uint h short

theorem FromFront.uint16 (short : ℕ → ε) : FromFront (readUint16 short) := (FromFront.takeBytes 2 short).map beNat

end GeminiTS.Lib
