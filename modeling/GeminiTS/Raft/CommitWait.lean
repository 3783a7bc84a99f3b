import GeminiTS.Raft.Cleaning

/-!
# CommitWait — a write waits for its commit

`WriteToRaft` (`engine/engine.go`) registers a channel for its proposal, proposes, waits for an answer or the
timeout and removes the channel. The committer (`engine/partition_raft.go`) applies committed data and answers
on the channel, which has no buffer, while it holds the read lock (`lib/raftconn/node.go`).

* `Node.Reach.returns` — the committer always gets out of `RetCommittedDataC` exactly if no call leaves its
  channel before the committer; `lateCommit_wedged` is a timeout before a commit.
* `Node.Reach.acknowledged_iff` — calls are answered with their own outcomes exactly if these are successes;
  `failedWrite_acknowledged` is a write that fails.
-/

namespace GeminiTS.Raft.CommitWait

open Lib List

/-! ### The code -/

/-- Where a call of `WriteToRaft` is. -/
inductive Phase
  | proposing
  | waiting
  | leaving
  deriving DecidableEq

/-- A call; `answer` is what it received, and nothing for one that timed out. -/
structure Call (E : Type*) where
  wrapper : DataWrapper
  phase : Phase
  answer : Option (Option E)

/-- A node with the calls whose channel is registered. `sending`: the committer is at its send, with the read lock.
`calls` are the proposals so far, `applied` what `dealNormalData` gave for which data, `returned` what the calls
returned. -/
structure Node (E : Type*) where
  identity : Bytes
  dataCommittedC : ℕ → Option (Call E)
  sending : Option (ℕ × Option E)
  calls : List DataWrapper
  proposed : List Bytes
  applied : List (DataWrapper × Option E)
  returned : List (DataWrapper × Option (Option E))

inductive Event (E : Type*)
  | add (id : ℕ) (tail : Bytes)
  | propose (id : ℕ)
  | commit (data : Bytes) (outcome : Option E)
  | receive
  | timeout (id : ℕ)
  | remove (id : ℕ)

namespace Node

variable {E : Type*} (s : Node E)

/-- The channels with that of one id changed. -/
def setCall (id : ℕ) (call : Option (Call E)) (i : ℕ) : Option (Call E) :=
  if i = id then call else s.dataCommittedC i

def retCommittedDataC (dw : DataWrapper) (committedErr : Option E) : Node E :=
  if dw.identity = s.identity ∧ (s.dataCommittedC dw.proposeId).isSome then
    { s with sending := some (dw.proposeId, committedErr) }
  else s

/-- `dealCommitData`; `outcome` is what `dealNormalData` gives. The error of the deferred call is read where the call
is deferred, before the data is dealt with. -/
def dealCommitData (data : Bytes) (outcome : Option E) : Option (Node E) :=
  match DataWrapper.unmarshal data with
  | .error .outOfRange => none
  | .error .noData => some s
  | .ok dw =>
    let s' := if dw.dataType = .normal then { s with applied := s.applied ++ [(dw, outcome)] } else s
    some (s'.retCommittedDataC dw none)

/-- Data that is not of this node. -/
def Foreign (data : Bytes) : Prop := ∀ dw, DataWrapper.unmarshal data = .ok dw → dw.identity ≠ s.identity

def start (identity : Bytes) : Node E := ⟨identity, fun _ => none, none, [], [], [], []⟩

/-- The steps. `add` and `remove` take the lock, `receive` is the meeting of the committer and a call. Raft commits what
was proposed here or elsewhere. -/
inductive Step (s : Node E) : Event E → Node E → Prop
  | used {id tail} : s.sending = none → (s.dataCommittedC id).isSome → Step s (.add id tail) s
  | add {id tail} : id < 2 ^ 64 → s.sending = none → s.dataCommittedC id = none → Step s (.add id tail) { s with
        dataCommittedC := s.setCall id (some ⟨⟨tail, .normal, s.identity, id⟩, .proposing, none⟩)
        calls := ⟨tail, .normal, s.identity, id⟩ :: s.calls }
  | propose {id call} : s.dataCommittedC id = some call → call.phase = .proposing → Step s (.propose id) { s with
        dataCommittedC := s.setCall id (some { call with phase := .waiting })
        proposed := call.wrapper.marshal :: s.proposed }
  | commit {data outcome s'} : s.sending = none → data ∈ s.proposed ∨ s.Foreign data →
      s.dealCommitData data outcome = some s' → Step s (.commit data outcome) s'
  | receive {id err call} : s.sending = some (id, err) → s.dataCommittedC id = some call → call.phase = .waiting →
      Step s .receive { s with
          dataCommittedC := s.setCall id (some { call with phase := .leaving, answer := some err })
          sending := none }
  | timeout {id call} : s.dataCommittedC id = some call → call.phase = .waiting → Step s (.timeout id)
      { s with dataCommittedC := s.setCall id (some { call with phase := .leaving }) }
  | remove {id call} : s.sending = none → s.dataCommittedC id = some call → call.phase = .leaving → Step s (.remove id)
      { s with dataCommittedC := s.setCall id none, returned := (call.wrapper, call.answer) :: s.returned }

/-- The states reached by steps that are all `ok`. -/
inductive Reach (ok : Node E → Event E → Prop) : Node E → Prop
  | start (identity : Bytes) : Reach ok (start identity)
  | step {s s' : Node E} {e : Event E} : Reach ok s → Step s e s' → ok s e → Reach ok s'

/-! ### The committer gets out -/

/-- Some continuation lets `RetCommittedDataC` return. -/
def Returns : Prop := ∃ s', Relation.ReflTransGen (fun a b => ∃ e, Step a e b) s s' ∧ s'.sending = none

/-- The call that the committer sends to has not left. -/
def Served : Prop :=
  ∀ id err, s.sending = some (id, err) → ∃ call, s.dataCommittedC id = some call ∧ call.phase ≠ .leaving

/-- No call has left its channel, but not yet removed it, where the committer begins to send to it, and none leaves
where the committer sends. -/
def Prompt : Event E → Prop
  | .commit data _ => ∀ dw, DataWrapper.unmarshal data = .ok dw → dw.identity = s.identity →
      ∀ call, s.dataCommittedC dw.proposeId = some call → call.phase ≠ .leaving
  | .timeout id => ∀ err, s.sending ≠ some (id, err)
  | _ => True

variable {s} {s' : Node E} {e : Event E}

theorem dealCommitData_cases {data : Bytes} {outcome : Option E} (h : s.dealCommitData data outcome = some s') :
    (s'.identity = s.identity ∧ s'.dataCommittedC = s.dataCommittedC ∧ s'.calls = s.calls ∧ s'.proposed = s.proposed ∧
      s'.returned = s.returned ∧ s.applied ⊆ s'.applied) ∧
    (s'.sending = s.sending ∧ (∀ dw, DataWrapper.unmarshal data = .ok dw → dw.identity = s.identity →
        s.dataCommittedC dw.proposeId = none) ∨
      ∃ dw call, DataWrapper.unmarshal data = .ok dw ∧ dw.identity = s.identity ∧
        s.dataCommittedC dw.proposeId = some call ∧ s'.sending = some (dw.proposeId, none) ∧
        (dw.dataType = .normal → (dw, outcome) ∈ s'.applied)) := by
  unfold dealCommitData at h
  split at h
  · cases h
  · grind
  · next dw hdw =>
    cases h
    by_cases hid : dw.identity = s.identity
    · cases hcall : s.dataCommittedC dw.proposeId with
      | none => by_cases hn : dw.dataType = .normal <;> simp [retCommittedDataC, hn, hcall, hdw]
      | some call =>
        refine ⟨?_, .inr ⟨dw, call, hdw, hid, hcall, ?_⟩⟩ <;> by_cases hn : dw.dataType = .normal <;>
          simp [retCommittedDataC, hn, hid, hcall]
    · by_cases hn : dw.dataType = .normal <;> simp [retCommittedDataC, hn, hid, hdw]

theorem Served.out (h : s.Served) : s.Returns := by
  cases hs : s.sending with
  | none => exact ⟨s, .refl, hs⟩
  | some p =>
    obtain ⟨id, err⟩ := p
    obtain ⟨⟨dw, phase, answer⟩, hcall, hleft⟩ := h id err hs
    cases phase with
    | proposing =>
      refine ⟨_, .tail (.single ⟨_, .propose hcall rfl⟩) ⟨_, .receive hs (if_pos rfl) ?_⟩, rfl⟩
      rfl
    | waiting => exact ⟨_, .single ⟨_, .receive hs hcall rfl⟩, rfl⟩
    | leaving => exact absurd rfl hleft

/-- A step from a committer that is served keeps it so exactly if it is prompt, and one that is not served stays so. -/
theorem Step.served_iff (h : Step s e s') : s'.Served ↔ s.Served ∧ s.Prompt e := by
  cases h with
  | commit hs _ hdeal =>
    obtain ⟨⟨-, hmap, -⟩, h⟩ := dealCommitData_cases hdeal
    grind [Served, Prompt]
  | _ => simp only [Served, Prompt, setCall]; grind

theorem returns_iff : s.Returns ↔ s.Served := by
  refine ⟨?_, Served.out⟩
  rintro ⟨s', hrun, hs'⟩
  induction hrun using Relation.ReflTransGen.head_induction_on with
  | refl =>
    intro id err h
    rw [hs'] at h
    cases h
  | head h _ ih =>
    obtain ⟨e, h⟩ := h
    exact (h.served_iff.mp ih).1

/-- **The committer gets out of `RetCommittedDataC`** as long as every step is prompt, and cannot any more after the
first step that is not. -/
theorem Reach.returns (h : Reach Prompt s) : s.Returns ∧ ∀ e s', Step s e s' → (s'.Returns ↔ s.Prompt e) := by
  have hs : s.Served := by
    induction h with
    | start => exact fun _ _ h => by cases h
    | step _ hstep hok ih => exact hstep.served_iff.mpr ⟨ih, hok⟩
  refine ⟨hs.out, fun e s' hstep => ?_⟩
  rw [returns_iff, hstep.served_iff]
  exact and_iff_right hs

/-- A call has proposed and waits, and the committer sends to it. -/
theorem sending_returns : ∃ s : Node ℕ, s.Reach Prompt ∧ s.sending = some (1, none) ∧ s.Returns ∧
    ∀ e s', Step s e s' → (s'.Returns ↔ s.Prompt e) := by
  have h0 : (start [65] : Node ℕ).Reach Prompt := .start [65]
  have h1 := h0.step (.add (by decide) rfl rfl : Step _ (.add 1 []) _) trivial
  have h2 := h1.step (.propose (if_pos rfl) rfl) trivial
  have h3 := h2.step (.commit rfl (.inl mem_cons_self) rfl : Step _ (.commit _ none) _) fun dw hdw hid call hcall => by
    cases hdw
    cases hcall
    decide
  exact ⟨_, h3, rfl, h3.returns⟩

end Node

/-- A call times out, its data is committed, and the committer sends before the call has removed its channel. -/
theorem lateCommit_wedged : ∃ s : Node ℕ, s.Reach (fun _ _ => True) ∧ s.sending.isSome ∧ ¬ s.Returns := by
  have h0 : (Node.start [65] : Node ℕ).Reach fun _ _ => True := .start [65]
  have h1 := h0.step (.add (by decide) rfl rfl : Node.Step _ (.add 1 []) _) trivial
  have h2 := h1.step (.propose (if_pos rfl) rfl) trivial
  have h3 := h2.step (.timeout (if_pos rfl) rfl) trivial
  have h4 := h3.step (.commit rfl (.inl mem_cons_self) rfl : Node.Step _ (.commit _ none) _) trivial
  refine ⟨_, h4, rfl, fun h => ?_⟩
  obtain ⟨call, hcall, hleft⟩ := Node.returns_iff.mp h 1 none rfl
  cases hcall
  exact hleft rfl

/-! ### The answers -/

/-- What is read as a wrapper of this identity is what was written. -/
theorem eq_of_unmarshal {d dw : DataWrapper} (htype : d.dataType = .normal) (hpropose : d.proposeId < 2 ^ 64)
    (h : DataWrapper.unmarshal d.marshal = .ok dw) (hid : dw.identity = d.identity) : dw = d := by
  have hlt : d.identity.length < 256 := by
    rw [← hid]
    unfold DataWrapper.unmarshal at h
    split at h
    · cases h
    · next l rest _ =>
      split_ifs at h
      cases h
      rw [length_take]
      exact (Nat.min_le_left _ _).trans_lt l.toNat_lt
  rw [DataWrapper.unmarshal_marshal (by rw [htype]; rfl) hlt hpropose] at h
  cases h
  rfl

namespace Node

variable {E : Type*} (s : Node E)

/-- A call that is answered gets what `dealNormalData` gave for its own data. -/
def Acknowledged : Prop :=
  ∀ dw err, (dw, some err) ∈ s.returned → (∃ o, (dw, o) ∈ s.applied) ∧ ∀ o, (dw, o) ∈ s.applied → err = o

/-- Propose ids are not given twice. -/
def Fresh : Event E → Prop
  | .add id _ => ∀ dw ∈ s.calls, dw.proposeId ≠ id
  | _ => True

/-- An answer is no error, and the data of its call has been dealt with. -/
def Answers (dw : DataWrapper) (err : Option E) : Prop := err = none ∧ ∃ o, (dw, o) ∈ s.applied

structure Paired : Prop where
  own : ∀ dw ∈ s.calls, dw.dataType = .normal ∧ dw.identity = s.identity ∧ dw.proposeId < 2 ^ 64
  inj : ∀ dw ∈ s.calls, ∀ dw' ∈ s.calls, dw.proposeId = dw'.proposeId → dw = dw'
  proposed : ∀ data ∈ s.proposed, ∃ dw ∈ s.calls, data = dw.marshal
  call : ∀ id call, s.dataCommittedC id = some call → call.wrapper ∈ s.calls ∧ call.wrapper.proposeId = id ∧
    ∀ err, call.answer = some err → s.Answers call.wrapper err
  sending : ∀ id err call, s.sending = some (id, err) → s.dataCommittedC id = some call → s.Answers call.wrapper err
  returned : ∀ dw err, (dw, some err) ∈ s.returned → s.Answers dw err

variable {s} {s' : Node E} {e : Event E}

theorem Paired.step (h : s.Paired) (hok : s.Fresh e) (hstep : Step s e s') : s'.Paired := by
  obtain ⟨hown, hinj, hproposed, hcall, hsending, hreturned⟩ := h
  cases hstep with
  | used => exact ⟨hown, hinj, hproposed, hcall, hsending, hreturned⟩
  | commit hs hdata hdeal =>
    obtain ⟨⟨hidentity, hmap, hcalls, hprop, hret, happlied⟩, hsend⟩ := dealCommitData_cases hdeal
    have hans : ∀ dw err, s.Answers dw err → s'.Answers dw err := fun dw err h =>
      ⟨h.1, h.2.imp fun o ho => happlied ho⟩
    refine ⟨by rwa [hcalls, hidentity], by rwa [hcalls], by rwa [hcalls, hprop], ?_, fun id err call herr hc => ?_, ?_⟩
    · rw [hmap, hcalls]
      exact fun id call hc => (hcall id call hc).imp_right (And.imp_right fun h err herr => hans _ _ (h err herr))
    · rcases hsend with ⟨heq, -⟩ | ⟨dw, call', hdw, hid, hc', hsome, hmem⟩
      · rw [heq, hs] at herr
        cases herr
      · -- the data is that of the call of the channel
        rw [hsome] at herr
        cases herr
        rw [hmap, hc'] at hc
        cases hc
        obtain ⟨d, hd, rfl⟩ := hproposed _ (hdata.resolve_right fun h => h dw hdw hid)
        obtain rfl := eq_of_unmarshal (hown d hd).1 (hown d hd).2.2 hdw (hid.trans (hown d hd).2.1.symm)
        obtain ⟨hw, hwid, -⟩ := hcall _ _ hc'
        exact ⟨rfl, _, hinj _ hd _ hw hwid.symm ▸ hmem (hown _ hd).1⟩
    · rw [hret]
      exact fun dw err h => hans _ _ (hreturned dw err h)
  | _ =>
    simp only [Fresh] at hok
    constructor <;> simp only [setCall, Answers] at * <;> grind

/-- **Calls are answered with their own outcomes** exactly if these are successes. -/
theorem Reach.acknowledged_iff (h : Reach Fresh s) :
    s.Acknowledged ↔ ∀ dw err, (dw, some err) ∈ s.returned → ∀ o, (dw, o) ∈ s.applied → o = none := by
  have hs : s.Paired := by
    induction h with
    | start => constructor <;> intros <;> contradiction
    | step _ hstep hok ih => exact ih.step hok hstep
  refine forall₂_congr fun dw err => forall_congr' fun hmem => ?_
  obtain ⟨rfl, hex⟩ := hs.returned dw err hmem
  rw [and_iff_right hex]
  exact forall₂_congr fun o _ => eq_comm

set_option maxRecDepth 2000 in
/-- A call whose data is written returns with the answer to it. -/
theorem written_acknowledged : ∃ s : Node ℕ, s.Reach Fresh ∧
    s.returned = [(⟨[], .normal, [65], 1⟩, some none)] ∧ s.Acknowledged := by
  have h0 : (start [65] : Node ℕ).Reach Fresh := .start [65]
  have h1 := h0.step (.add (by decide) rfl rfl : Step _ (.add 1 []) _) fun _ h => absurd h not_mem_nil
  have h2 := h1.step (.propose (if_pos rfl) rfl) trivial
  have h3 := h2.step (.commit rfl (.inl mem_cons_self) rfl : Step _ (.commit _ none) _) trivial
  have h4 := h3.step (.receive rfl rfl (by rfl)) trivial
  have h5 := h4.step (.remove rfl (if_pos rfl) rfl) trivial
  refine ⟨_, h5, rfl, h5.acknowledged_iff.mpr fun dw err _ o ho => ?_⟩
  cases mem_singleton.mp ho
  rfl

end Node

set_option maxRecDepth 2000 in
/-- The data of a call cannot be written, and the call returns without an error. -/
theorem failedWrite_acknowledged : ∃ s : Node ℕ, s.Reach Node.Fresh ∧ ¬ s.Acknowledged := by
  have h0 : (Node.start [65] : Node ℕ).Reach Node.Fresh := .start [65]
  have h1 := h0.step (.add (by decide) rfl rfl : Node.Step _ (.add 1 []) _) fun _ h => absurd h not_mem_nil
  have h2 := h1.step (.propose (if_pos rfl) rfl) trivial
  have h3 := h2.step (.commit rfl (.inl mem_cons_self) rfl : Node.Step _ (.commit _ (some 7)) _) trivial
  have h4 := h3.step (.receive rfl rfl (by rfl)) trivial
  have h5 := h4.step (.remove rfl (if_pos rfl) rfl) trivial
  refine ⟨_, h5, fun h => ?_⟩
  cases (h _ none mem_cons_self).2 (some 7) mem_cons_self

end GeminiTS.Raft.CommitWait
