import Mathlib

/-!
# ResourceBucket — clients that share an amount

A client takes its cost off the free amount or waits on a channel. A release that finds blocked clients puts a
new channel in the place of the one they wait on and then closes that (`lib/bucket/bucket.go`). What is done under
the lock is one step. The amounts stay between zero and the total and do not overflow.

* `System.safe_run` — in every interleaving the amounts add up, the blocked clients are counted, and a client that
  waits for no more than is free waits on a channel that is closed or is being closed.
* `System.live_run` — no client is stuck for good.
-/

namespace GeminiTS.ResourceBucket

open List

/-! ### The code -/

/-- Where a client is. `woken` and `timedOut` are left by taking the client off `blockExecutor`, `closing` by
closing the channel. -/
inductive Client
  | idle
  | locking (cost : ℕ)
  | waiting (cost waitBroadcast : ℕ)
  | woken (cost : ℕ)
  | timedOut
  | holding (cost : ℕ)
  | closing (waitBroadcast : ℕ)

/-- The channels are numbered as they are made. -/
structure Int64bucket where
  broadcast : ℕ
  freeResource : ℤ
  blockExecutor : ℤ
  outOfLimitOnce : Bool
  closed : List ℕ

def NewInt64Bucket (totalResource : ℤ) (outOfLimitOnce : Bool) : Int64bucket :=
  ⟨0, totalResource, 0, outOfLimitOnce, []⟩

variable (b : Int64bucket)

/-- A turn of the loop up to the `select`. -/
def getResImpl (cost : ℕ) : Int64bucket × Client :=
  let freeMem := b.freeResource - cost
  if b.freeResource ≥ 0 ∧ b.outOfLimitOnce ∨ ¬ b.outOfLimitOnce ∧ freeMem ≥ 0 then
    ({ b with freeResource := freeMem }, .holding cost)
  else ({ b with blockExecutor := b.blockExecutor + 1 }, .waiting cost b.broadcast)

/-- Up to the unlock. -/
def ReleaseResource (freed : ℕ) : Int64bucket × Client :=
  let b := { b with freeResource := b.freeResource + freed }
  if b.blockExecutor ≠ 0 then ({ b with broadcast := b.broadcast + 1 }, .closing b.broadcast) else (b, .idle)

/-- What a client does next. -/
inductive Move
  | get (cost : ℕ)
  | go
  | timeOut

/-- A step of a client, if it can make one. A client that waits goes on when its channel is closed or its timer
fires. -/
def Client.step : Client → Move → Option (Int64bucket × Client)
  | idle, .get cost => some (b, locking cost)
  | locking cost, .go => some (getResImpl b cost)
  | waiting cost ch, .go => if ch ∈ b.closed then some (b, woken cost) else none
  | waiting _ _, .timeOut => some (b, timedOut)
  | woken cost, .go => some ({ b with blockExecutor := b.blockExecutor - 1 }, locking cost)
  | timedOut, .go => some ({ b with blockExecutor := b.blockExecutor - 1 }, idle)
  | holding cost, .go => some (ReleaseResource b cost)
  | closing ch, .go => some ({ b with closed := ch :: b.closed }, idle)
  | _, _ => none

/-- A bucket and the clients that share it. -/
structure System where
  bucket : Int64bucket
  clients : List Client

/-- A client moves; a move that it cannot make changes nothing. -/
def System.step (s : System) (m : ℕ × Move) : System :=
  match s.clients[m.1]?.bind (·.step s.bucket m.2) with
  | none => s
  | some (b, c) => ⟨b, s.clients.set m.1 c⟩

/-- The clients `0 … n - 1` after some moves. -/
def System.run (total n : ℕ) (moves : List (ℕ × Move)) : System :=
  moves.foldl step ⟨NewInt64Bucket total false, replicate n .idle⟩

/-! ### What holds in every interleaving -/

/-- What a client has taken and not yet given back. -/
@[grind =]
def Client.held : Client → ℤ
  | holding cost => cost
  | _ => 0

def Client.isWaiting : Client → Bool
  | waiting _ _ => true
  | _ => false

/-- The clients that are counted in `blockExecutor`. -/
@[grind =]
def Client.blocked : Client → ℤ
  | waiting _ _ | woken _ | timedOut => 1
  | _ => 0

/-- The amounts add up and no client is left on a channel that nobody closes. -/
structure System.Safe (total : ℕ) (s : System) : Prop where
  free_eq : s.bucket.freeResource = total - (s.clients.map Client.held).sum
  nonneg : 0 ≤ s.bucket.freeResource
  counted : s.clients.countP Client.isWaiting ≤ s.bucket.blockExecutor
  signalled : ∀ (cost ch : ℕ), .waiting cost ch ∈ s.clients → cost ≤ s.bucket.freeResource →
    ch ∈ s.bucket.closed ∨ .closing ch ∈ s.clients

/-- A client that waits on the current channel waits for more than is free; every older channel gets closed. -/
structure System.Inv (total : ℕ) (s : System) : Prop where
  limited : s.bucket.outOfLimitOnce = false
  free_eq : s.bucket.freeResource = total - (s.clients.map Client.held).sum
  nonneg : 0 ≤ s.bucket.freeResource
  counted : s.bucket.blockExecutor = (s.clients.map Client.blocked).sum
  signalled : ∀ (cost ch : ℕ), .waiting cost ch ∈ s.clients →
    ch ∈ s.bucket.closed ∨ .closing ch ∈ s.clients ∨ ch = s.bucket.broadcast ∧ s.bucket.freeResource < cost

namespace System

variable {total : ℕ} {b b' : Int64bucket} {c c' : Client} {l r : List Client}

theorem countP_isWaiting_le (cs : List Client) : cs.countP Client.isWaiting ≤ (cs.map Client.blocked).sum := by
  induction cs with
  | nil => simp
  | cons c cs ih =>
    rw [countP_cons, map_cons, sum_cons]
    cases c <;> simp [Client.isWaiting, Client.blocked] <;> omega

theorem Inv.safe {s : System} (h : s.Inv total) : s.Safe total where
  free_eq := h.free_eq
  nonneg := h.nonneg
  counted := h.counted ▸ countP_isWaiting_le s.clients
  signalled cost ch hc hle := by
    rcases h.signalled cost ch hc with h | h | h
    · exact .inl h
    · exact .inr h
    · omega

/-- A client on the current channel stays there while no more gets free, and if no client is blocked there is
none. -/
theorem Inv.replace (h : Inv total ⟨b, l ++ c :: r⟩) (hlimit : b'.outOfLimitOnce = b.outOfLimitOnce)
    (hfree : b'.freeResource + c'.held = b.freeResource + c.held) (hpos : 0 ≤ b'.freeResource)
    (hblock : b'.blockExecutor - c'.blocked = b.blockExecutor - c.blocked)
    (hclosed : b.closed ⊆ b'.closed) (hclose : ∀ ch, c = .closing ch → ch ∈ b'.closed)
    (hwait : ∀ cost ch, c' = .waiting cost ch → ch = b'.broadcast ∧ b'.freeResource < cost)
    (hold : b'.broadcast = b.broadcast ∧ b'.freeResource ≤ b.freeResource ∨ c' = .closing b.broadcast ∨
      b.blockExecutor = 0) : Inv total ⟨b', l ++ c' :: r⟩ where
  limited := hlimit.trans h.limited
  free_eq := by
    have := h.free_eq
    simp only [map_append, map_cons, sum_append, sum_cons] at this ⊢
    omega
  nonneg := hpos
  counted := by
    have := h.counted
    simp only [map_append, map_cons, sum_append, sum_cons] at this ⊢
    omega
  signalled cost ch hmem := by
    -- either the client itself begins to wait, or this one waited before
    by_cases hc : c' = .waiting cost ch
    · exact .inr (.inr (hwait cost ch hc))
    rcases h.signalled cost ch (by grind) with hch | hch | ⟨rfl, hlt⟩
    · exact .inl (hclosed hch)
    · -- whoever closes the channel still does, or has just done it
      by_cases hc : c = .closing ch
      · exact .inl (hclose ch hc)
      · exact .inr (.inl (by grind))
    · rcases hold with ⟨hch, hle⟩ | rfl | hzero
      · exact .inr (.inr ⟨hch.symm, hle.trans_lt hlt⟩)
      · exact .inr (.inl (by simp))
      · -- with nobody counted as blocked nobody waits
        have hcount := h.safe.counted
        have : 0 < countP Client.isWaiting (l ++ c :: r) :=
          countP_pos_iff.mpr ⟨.waiting cost b.broadcast, by grind, rfl⟩
        grind

theorem Inv.move (h : Inv total ⟨b, l ++ c :: r⟩) {m : Move} (hm : c.step b m = some (b', c')) :
    Inv total ⟨b', l ++ c' :: r⟩ := by
  have hlimit := h.limited
  have hpos := h.nonneg
  unfold Client.step at hm
  split at hm
  case h_2 => -- the lock in `getResImpl`
    rw [Option.some.injEq, getResImpl] at hm
    split_ifs at hm <;> cases hm <;> apply h.replace <;> grind
  case h_7 => -- the lock in `ReleaseResource`
    rw [Option.some.injEq, ReleaseResource] at hm
    split_ifs at hm <;> cases hm <;> apply h.replace <;> grind
  case h_3 => -- the channel is closed
    split_ifs at hm
    cases hm
    apply h.replace <;> grind
  all_goals
    cases hm <;> apply h.replace <;> grind

theorem Inv.step {s : System} (h : s.Inv total) (m : ℕ × Move) : (s.step m).Inv total := by
  rw [System.step]
  split
  · exact h
  · next b c' hstep =>
    obtain ⟨c, hc, hm⟩ := Option.bind_eq_some_iff.mp hstep
    obtain ⟨hlt, rfl⟩ := List.getElem?_eq_some_iff.mp hc
    rw [set_eq_take_append_cons_drop, if_pos hlt]
    refine Inv.move ?_ hm
    rwa [getElem_cons_drop, take_append_drop]

/-- For every total, number of clients and interleaving of their moves. -/
theorem safe_run (total n : ℕ) (moves : List (ℕ × Move)) : (run total n moves).Safe total := by
  refine (foldlRecOn (motive := Inv total) moves step ?_ fun s h m _ => h.step m).safe
  exact ⟨rfl, by simp [NewInt64Bucket, Client.held], by simp [NewInt64Bucket],
    by simp [NewInt64Bucket, Client.blocked], by simp⟩

/-- Nobody is stuck for good and nothing leaks. -/
structure Live (total : ℕ) (s : System) : Prop where
  -- while a client waits for no more than the total, some client can go on without its timer
  moves : ∀ cost ch : ℕ, .waiting cost ch ∈ s.clients → cost ≤ total → ∃ c ∈ s.clients, (c.step s.bucket .go).isSome
  restored : (∀ c ∈ s.clients, c = .idle) → s.bucket.freeResource = total ∧ s.bucket.blockExecutor = 0

theorem Inv.live {s : System} (h : s.Inv total) : s.Live total where
  moves cost ch hc hle := by
    rcases h.signalled cost ch hc with hch | hch | ⟨-, hlt⟩
    · exact ⟨_, hc, by simp [Client.step, hch]⟩
    · exact ⟨_, hch, rfl⟩
    · -- too little is free, so somebody holds the rest
      by_contra hno
      have hsum : (s.clients.map Client.held).sum = 0 := sum_eq_zero fun x hx => by
        obtain ⟨c, hc, rfl⟩ := mem_map.mp hx
        cases c with
        | holding cost => exact (hno ⟨_, hc, rfl⟩).elim
        | _ => rfl
      have := h.free_eq
      omega
  restored hidle := by
    rw [h.free_eq, h.counted, eq_replicate_of_mem hidle]
    simp [Client.held, Client.blocked]

/-- **The clients never block each other**, in no interleaving. -/
theorem live_run (total n : ℕ) (moves : List (ℕ × Move)) : (run total n moves).Live total := by
  refine (foldlRecOn (motive := Inv total) moves step ?_ fun s h m _ => h.step m).live
  exact ⟨rfl, by simp [NewInt64Bucket, Client.held], by simp [NewInt64Bucket],
    by simp [NewInt64Bucket, Client.blocked], by simp⟩

end System

end GeminiTS.ResourceBucket
