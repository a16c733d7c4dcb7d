import PaxosPayments.Foundations.Voting
import PaxosPayments.Paxos.Applied
import PaxosPayments.Paxos.Promises

/-!
# A replica as an acceptor

A replica keeps one entry for a slot, the last one stored. It forgets what it voted for before, and
`catchUp` even replaces its own vote by an entry of a lower ballot. `Node.Safe` says that the entry
it keeps nevertheless answers for all its votes (`Voting.Answers`), and that a slot it marked as
committed holds a value that is chosen (`Node.Settled`). This is what the recovery of a new leader,
the apply loop and the catch-up of other replicas rely on.

Each update of a replica keeps `Node.Safe`, relative to the votes `σ` of the group:
* a vote, when it is cast in the ballot promised and does not replace a committed entry by one of a
  lower ballot (`Node.Safe.vote`);
* the adoption of an entry that is backed (`Node.Safe.adopt`), and so the whole of `catchUp`
  (`Node.Safe.concludeCatchUp`);
* the mark of a commitment, when the slot is settled (`Node.Safe.markCommitted`), and the apply loop
  (`Node.Safe.applyNext`).
-/

namespace PaxosPayments.Paxos

/-- What the replicas of a group have promised and voted for, and what was proposed to them. -/
abbrev Votes := Voting.History NodeID ℕ Ballot Command

section

variable (qs : Voting.Quorums NodeID) (σ : Votes)

/-- The entry was proposed. -/
def Entry.Proposed (e : Entry) : Prop := σ.proposed e.slot e.ballot e.command

/-- The command of the entry was chosen at or below its ballot. -/
def Entry.Backed (e : Entry) : Prop := Voting.Backed qs σ e.slot e.ballot e.command

/-- The entry `e` answers for a vote for `v`. -/
def Entry.Answers (e v : Entry) : Prop :=
  Voting.Answers qs σ v.slot e.ballot e.command v.ballot v.command

/-- The replica stores a chosen value for the slot. -/
def Node.Settled (n : Node) (s : ℕ) : Prop :=
  ∃ e, n.log.entries s = some e ∧ e.slot = s ∧ e.Backed qs σ

/-- The log of a replica answers for its votes, its commitments are chosen, and a leader is free in
the slots it has not handed out. -/
structure Node.Safe (n : Node) : Prop where
  slot : ∀ s e, n.log.entries s = some e → e.slot = s
  bound : ∀ s e, n.log.entries s = some e → s ≤ n.log.maxSlot
  stored : ∀ s e, n.log.entries s = some e → e.Proposed σ
  votes : ∀ v, .voted v ∈ n.history → v.ballot ≤ n.log.promised ∧ v.Proposed σ ∧
    ∃ e, n.log.entries v.slot = some e ∧ e.Answers qs σ v
  committed : ∀ s, n.committed s = true → n.Settled qs σ s
  applied : ∀ s c, .applied s c ∈ n.history → ∃ b, Voting.ChosenAt qs σ s b c
  upTo : ∀ s, 1 ≤ s → s ≤ n.appliedIndex → n.committed s = true
  leader : n.role = .leader → ∀ s, n.nextSlot ≤ s → ∀ v, Voting.SafeBelow qs σ s n.ballot v

end

variable {qs : Voting.Quorums NodeID} {σ τ : Votes} {n n' : Node} {e : Entry} {b : Ballot}

theorem Node.Settled.mono {s : ℕ} (he : Voting.Extends σ τ) (h : n.Settled qs σ s) :
    n.Settled qs τ s := by
  obtain ⟨e, hs, hslot, hb⟩ := h
  exact ⟨e, hs, hslot, he.backed hb⟩

namespace Node.Safe

theorem fresh (qs : Voting.Quorums NodeID) (σ : Votes) : Node.Safe qs σ Node.fresh where
  slot := by simp [Node.fresh, Log.empty]
  bound := by simp [Node.fresh, Log.empty]
  stored := by simp [Node.fresh, Log.empty]
  votes := by simp [Node.fresh]
  committed := by simp [Node.fresh]
  applied := by simp [Node.fresh]
  upTo s h₁ h₂ := by
    simp only [Node.fresh, Nat.le_zero] at h₂
    omega
  leader := by simp [Node.fresh]

/-- What a replica's state says stays true as the votes of the group go on. -/
theorem mono (he : Voting.Extends σ τ) (h : n.Safe qs σ) : n.Safe qs τ where
  slot := h.slot
  bound := h.bound
  stored s e hs := he.proposed (h.stored s e hs)
  votes v hv := by
    obtain ⟨h₁, h₂, e, hs, ha⟩ := h.votes v hv
    exact ⟨h₁, he.proposed h₂, e, hs, he.answers ha⟩
  committed s hs := (h.committed s hs).mono he
  applied s c hc := by
    obtain ⟨b, hb⟩ := h.applied s c hc
    exact ⟨b, he.chosenAt hb⟩
  upTo := h.upTo
  leader hl s hs v := he.safeBelow (h.leader hl s hs v)

/-- A change of the fields that say nothing about votes. -/
theorem quiet (h : n.Safe qs σ) (hlog : n'.log = n.log) (hhist : n'.history = n.history)
    (hcomm : n'.committed = n.committed) (happ : n'.appliedIndex = n.appliedIndex)
    (hlead : n'.role = .leader → ∀ s, n'.nextSlot ≤ s → ∀ v,
      Voting.SafeBelow qs σ s n'.ballot v) : n'.Safe qs σ where
  slot := hlog ▸ h.slot
  bound := hlog ▸ h.bound
  stored := hlog ▸ h.stored
  votes := hlog ▸ hhist ▸ h.votes
  committed s hs := by
    rw [hcomm] at hs
    unfold Settled
    rw [hlog]
    exact h.committed s hs
  applied := hhist ▸ h.applied
  upTo := hcomm ▸ happ ▸ h.upTo
  leader := hlead

theorem follower (h : n.Safe qs σ) (leader : NodeID) (catchingUp : Bool) :
    { n with role := .follower, leader := leader, catchingUp := catchingUp }.Safe qs σ :=
  h.quiet rfl rfl rfl rfl (by simp)

theorem promise (h : n.Safe qs σ) (hb : n.log.promised ≤ b) : (n.promise b).Safe qs σ where
  slot := h.slot
  bound := h.bound
  stored := h.stored
  votes v hv := by
    obtain ⟨h₁, h₂⟩ := h.votes v (by simpa using hv)
    exact ⟨h₁.trans hb, h₂⟩
  committed := h.committed
  applied s c hc := h.applied s c (by simpa using hc)
  upTo := h.upTo
  leader := h.leader

theorem stepDown (h : n.Safe qs σ) (b : Ballot) (disk : ℕ) : (n.stepDown b disk).Safe qs σ := by
  have hf := h.follower n.leader n.catchingUp
  unfold Node.stepDown
  dsimp only
  split_ifs with hc
  · simp only [Bool.and_eq_true, Ballot.less_iff] at hc
    exact hf.promise hc.1.2.le
  · exact hf

theorem stepsDown (h : n.Safe qs σ) (hn : n.StepsDown n') : n'.Safe qs σ := by
  rcases hn with rfl | ⟨b, disk, rfl⟩
  · exact h
  · exact h.stepDown b disk

/-! ## Storing an entry -/

/-- An entry is stored that was proposed and answers for the votes in its slot. -/
theorem store (h : n.Safe qs σ) (hp : e.Proposed σ)
    (hans : ∀ v, .voted v ∈ n'.history → v.slot = e.slot → v.ballot ≤ n.log.promised ∧
      v.Proposed σ ∧ e.Answers qs σ v)
    (hcomm : n.committed e.slot = true → e.Backed qs σ) (hlog : n'.log = n.log.accept e)
    (hhist : ∀ v, .voted v ∈ n'.history → v.slot ≠ e.slot → .voted v ∈ n.history)
    (happlied : ∀ s c, .applied s c ∈ n'.history → .applied s c ∈ n.history)
    (hcomm' : n'.committed = n.committed) (happ : n'.appliedIndex = n.appliedIndex)
    (hlead : n'.role = .leader → n.role = .leader ∧ n'.ballot = n.ballot ∧
      n'.nextSlot = n.nextSlot) : n'.Safe qs σ where
  slot s e' hs := by
    rw [hlog] at hs
    by_cases hse : s = e.slot
    · subst hse
      rw [Log.accept_entries_self] at hs
      rw [← Option.some.inj hs]
    · rw [Log.accept_entries_ne _ _ hse] at hs
      exact h.slot s e' hs
  bound s e' hs := by
    rw [hlog] at hs ⊢
    by_cases hse : s = e.slot
    · exact hse ▸ Log.slot_le_accept _ _
    · rw [Log.accept_entries_ne _ _ hse] at hs
      exact (h.bound s e' hs).trans (Log.maxSlot_le_accept _ _)
  stored s e' hs := by
    rw [hlog] at hs
    by_cases hse : s = e.slot
    · subst hse
      rw [Log.accept_entries_self] at hs
      rwa [← Option.some.inj hs]
    · rw [Log.accept_entries_ne _ _ hse] at hs
      exact h.stored s e' hs
  votes v hv := by
    rw [hlog]
    by_cases hse : v.slot = e.slot
    · obtain ⟨h₁, h₂, h₃⟩ := hans v hv hse
      exact ⟨h₁, h₂, e, by rw [hse, Log.accept_entries_self], h₃⟩
    · rw [Log.accept_entries_ne _ _ hse]
      exact h.votes v (hhist v hv hse)
  committed s hs := by
    rw [hcomm'] at hs
    unfold Settled
    rw [hlog]
    by_cases hse : s = e.slot
    · subst hse
      exact ⟨e, Log.accept_entries_self _ _, rfl, hcomm hs⟩
    · rw [Log.accept_entries_ne _ _ hse]
      exact h.committed s hs
  applied s c hc := h.applied s c (happlied s c hc)
  upTo := hcomm' ▸ happ ▸ h.upTo
  leader hl := by
    obtain ⟨hl', hb, hs⟩ := hlead hl
    rw [hb, hs]
    exact h.leader hl'

/-- **A vote in the ballot promised**, for a proposal. -/
theorem vote (hσ : Voting.Sound qs σ) (h : n.Safe qs σ) (hp : e.Proposed σ)
    (hb : e.ballot = n.log.promised)
    (hcomm : ∀ e', n.log.entries e.slot = some e' → n.committed e.slot = true →
      e'.ballot ≤ e.ballot) : (n.vote e).Safe qs σ := by
  refine h.store hp (fun v hv hs => ?_) (fun hc => ?_) rfl (fun v hv hs => ?_)
    (fun s c hc => by simpa using hc) rfl rfl (fun hl => ⟨hl, rfl, rfl⟩)
  · simp only [vote_history, List.mem_cons, Event.voted.injEq] at hv
    rcases hv with rfl | hv
    · exact ⟨hb.le, hp, Or.inl le_rfl⟩
    · obtain ⟨h₁, h₂, -⟩ := h.votes v hv
      exact ⟨h₁, h₂, Or.inl (hb ▸ h₁)⟩
  · -- the entry that was committed is not above the new one, which is for the same command
    obtain ⟨e', hs, hslot, hback⟩ := h.committed e.slot hc
    have hback' : Voting.Backed qs σ e.slot e'.ballot e'.command := hslot ▸ hback
    exact hσ.backed_of_proposed hback' hp (hcomm e' hs hc)
  · simp only [vote_history, List.mem_cons, Event.voted.injEq] at hv
    rcases hv with rfl | hv
    · exact absurd rfl hs
    · exact hv

/-- **The adoption of a chosen value**, whatever the replica voted for. -/
theorem adopt (hσ : Voting.Sound qs σ) (h : n.Safe qs σ) (hp : e.Proposed σ)
    (hb : e.Backed qs σ) : (n.adopt e).Safe qs σ := by
  refine h.store hp (fun v hv hs => ?_) (fun _ => hb) rfl (fun v hv _ => by simpa using hv)
    (fun s c hc => by simpa using hc) rfl rfl (fun hl => ⟨hl, rfl, rfl⟩)
  obtain ⟨h₁, h₂, -⟩ := h.votes v (by simpa using hv)
  have hb' : Voting.Backed qs σ v.slot e.ballot e.command := hs ▸ hb
  exact ⟨h₁, h₂, hσ.answers_of_backed hb' h₂⟩

/-! ## Committing and applying -/

theorem markCommitted (h : n.Safe qs σ) {slots : List ℕ} (hs : ∀ s ∈ slots, n.Settled qs σ s) :
    (n.markCommitted slots).Safe qs σ where
  slot := h.slot
  bound := h.bound
  stored := h.stored
  votes := h.votes
  committed s hc := by
    simp only [Node.markCommitted, Bool.or_eq_true, List.contains_iff_mem] at hc
    rcases hc with hc | hc
    · exact h.committed s hc
    · exact hs s hc
  applied := h.applied
  upTo s h₁ h₂ := by simp [Node.markCommitted, h.upTo s h₁ h₂]
  leader := h.leader

theorem applyNext (h : n.Safe qs σ) (hs : n.applyNext = some n') : n'.Safe qs σ := by
  unfold Node.applyNext at hs
  dsimp only at hs
  split_ifs at hs with hc
  split at hs
  · simp at hs
  rename_i e he
  obtain rfl := Option.some.inj hs
  rw [Entry.applied_command]
  refine ⟨h.slot, h.bound, h.stored, fun v hv => h.votes v (by simpa using hv), h.committed, ?_,
    fun s h₁ h₂ => ?_, h.leader⟩
  · intro s c hmem
    simp only [List.mem_cons, Event.applied.injEq] at hmem
    rcases hmem with ⟨rfl, rfl⟩ | hmem
    · obtain ⟨e', he', hslot, b, -, hch⟩ := h.committed _ hc
      obtain rfl := Option.some.inj (he.symm.trans he')
      exact ⟨b, hslot ▸ hch⟩
    · exact h.applied s c hmem
  · dsimp only at h₂
    rcases h₂.eq_or_lt with rfl | hlt
    · exact hc
    · exact h.upTo s h₁ (Nat.lt_succ_iff.mp (hlt.trans_le (uint64Succ_le _)))

/-! ## Catching up -/

theorem settled_adopt {s : ℕ} (h : n.Settled qs σ s) (hb : e.Backed qs σ) :
    (n.adopt e).Settled qs σ s := by
  unfold Settled
  rw [adopt_log]
  by_cases hse : s = e.slot
  · subst hse
    exact ⟨e, Log.accept_entries_self _ _, rfl, hb⟩
  · rw [Log.accept_entries_ne _ _ hse]
    exact h

theorem chosenEntry_eq_some {entries : List Entry} {slot : ℕ}
    (h : chosenEntry entries slot = some e) : e ∈ entries ∧ e.slot = slot := by
  refine ⟨List.mem_reverse.mp (List.mem_of_find?_eq_some h), ?_⟩
  have hslot := List.find?_some h
  simpa using hslot

/-- The loop of `catchUp` settles the slots it returns, and unsettles none. -/
theorem catchUpLoop (hσ : Voting.Sound qs σ) {entries : List Entry} {last : ℕ}
    (hent : ∀ e ∈ entries, e.slot ≤ last → e.Proposed σ ∧ e.Backed qs σ) (fuel slot disk : ℕ)
    (hfuel : slot + fuel ≤ last + 1) (h : n.Safe qs σ) :
    (Node.catchUpLoop entries fuel slot disk n).2.Safe qs σ ∧
      (∀ s, n.Settled qs σ s → (Node.catchUpLoop entries fuel slot disk n).2.Settled qs σ s) ∧
      ∀ s ∈ (Node.catchUpLoop entries fuel slot disk n).1,
        (Node.catchUpLoop entries fuel slot disk n).2.Settled qs σ s := by
  induction fuel generalizing slot disk n with
  | zero => exact ⟨h, fun _ hs => hs, by simp [Node.catchUpLoop]⟩
  | succ fuel ih =>
    unfold Node.catchUpLoop
    split
    · exact ⟨h, fun _ hs => hs, by simp⟩
    rename_i e he
    obtain ⟨hmem, rfl⟩ := chosenEntry_eq_some he
    obtain ⟨hp, hb⟩ := hent e hmem (by omega)
    -- once the slot is settled, so is every slot of the rest of the loop
    have hnext : ∀ (m : Node) (disk : ℕ), m.Safe qs σ → m.Settled qs σ e.slot →
        (∀ s, n.Settled qs σ s → m.Settled qs σ s) →
        (Node.catchUpLoop entries fuel (e.slot + 1) disk m).2.Safe qs σ ∧
          (∀ s, n.Settled qs σ s →
            (Node.catchUpLoop entries fuel (e.slot + 1) disk m).2.Settled qs σ s) ∧
          ∀ s ∈ e.slot :: (Node.catchUpLoop entries fuel (e.slot + 1) disk m).1,
            (Node.catchUpLoop entries fuel (e.slot + 1) disk m).2.Settled qs σ s := by
      intro m disk hm hset hkeep
      obtain ⟨h₁, h₂, h₃⟩ := ih (e.slot + 1) disk (by omega) hm
      refine ⟨h₁, fun s hs => h₂ s (hkeep s hs), fun s hs => ?_⟩
      rcases List.mem_cons.mp hs with rfl | hs
      · exact h₂ _ hset
      · exact h₃ s hs
    dsimp only
    split_ifs with hsame
    · -- the entry is held already
      refine hnext n disk h ?_ fun _ hs => hs
      split at hsame
      · rename_i l hl
        obtain ⟨hlb, hlc⟩ := of_decide_eq_true hsame
        have hslot := h.slot _ _ hl
        refine ⟨l, hl, hslot, ?_⟩
        unfold Entry.Backed
        rw [hslot, hlb, hlc]
        exact hb
      · simp at hsame
    · exact ⟨h, fun _ hs => hs, by simp⟩
    · refine hnext (n.adopt e) (disk - 1) (h.adopt hσ hp hb) ?_ fun _ hs => settled_adopt hs hb
      exact ⟨e, by simp, rfl, hb⟩

theorem concludeCatchUp (hσ : Voting.Sound qs σ) (h : n.Safe qs σ) {first last : ℕ}
    {reply : Option Message} (disk : ℕ)
    (hent : ∀ m, reply = some m → ∀ e ∈ m.entries, e.slot ≤ last →
      e.Proposed σ ∧ e.Backed qs σ) :
    (n.concludeCatchUp first last reply disk).Safe qs σ := by
  have hdone : ∀ m : Node, m.Safe qs σ → { m with catchingUp := false }.Safe qs σ :=
    fun m hm => hm.quiet rfl rfl rfl rfl hm.leader
  unfold Node.concludeCatchUp
  cases reply with
  | none => exact hdone n h
  | some r =>
    dsimp only
    split_ifs
    · exact hdone n h
    · rcases Nat.lt_or_ge last first with hlt | hle
      · -- nothing is to be learned
        have h0 : last + 1 - first = 0 := by omega
        rw [h0]
        exact hdone _ (h.markCommitted (by simp [Node.catchUpLoop]))
      · obtain ⟨h₁, -, h₃⟩ := catchUpLoop hσ (hent r rfl) (last + 1 - first) first disk
          (by omega) h
        exact hdone _ (h₁.markCommitted h₃)

/-! ## Messages -/

theorem handlePrepare (h : n.Safe qs σ) (id : NodeID) (msg : Message) (disk : ℕ) :
    (n.handlePrepare id msg disk).1.Safe qs σ := by
  unfold Node.handlePrepare
  dsimp only
  split_ifs with hb
  · exact h
  · exact h
  · rw [Bool.not_eq_true, Ballot.less_eq_false_iff] at hb
    exact (h.promise hb).follower msg.sender n.catchingUp

theorem handleAccept (hσ : Voting.Sound qs σ) (h : n.Safe qs σ) (id : NodeID) {msg : Message}
    (disk : ℕ) (hp : (⟨msg.slot, msg.ballot, msg.command⟩ : Entry).Proposed σ)
    (hcomm : n.log.promised ≤ msg.ballot → ∀ e', n.log.entries msg.slot = some e' →
      n.committed msg.slot = true → e'.ballot ≤ msg.ballot) :
    (n.handleAccept id msg disk).1.Safe qs σ := by
  unfold Node.handleAccept
  dsimp only
  split_ifs with h₁ h₂ h₃ h₄
  · exact h
  · exact h
  · rw [Ballot.less_iff] at h₂
    exact h.promise h₂.le
  · rw [Ballot.less_iff] at h₂
    exact ((h.promise h₂.le).vote hσ hp rfl (hcomm h₂.le)).follower msg.sender n.catchingUp
  · exact h
  · rw [Bool.not_eq_true, Ballot.less_eq_false_iff] at h₁ h₂
    exact (h.vote hσ hp (le_antisymm h₂ h₁) (hcomm h₁)).follower msg.sender n.catchingUp

theorem handleCommit (h : n.Safe qs σ) (id : NodeID) (msg : Message) :
    (n.handleCommit id msg).1.Safe qs σ := by
  unfold Node.handleCommit
  dsimp only
  split_ifs <;> first
    | exact h
    | exact h.follower msg.sender _

end Node.Safe

namespace Node

/-- A promise: the ballot is recorded, and the log is handed over. -/
theorem handlePrepare_ok {id : NodeID} {msg : Message} {disk : ℕ}
    (hok : (n.handlePrepare id msg disk).2.ok = true) :
    (n.handlePrepare id msg disk).1.log.promised = msg.ballot ∧
      (n.handlePrepare id msg disk).1.history = .promised msg.ballot :: n.history ∧
      (n.handlePrepare id msg disk).2.entries = n.log.entriesFrom msg.slot := by
  unfold handlePrepare at hok ⊢
  dsimp only at hok ⊢
  split_ifs at hok ⊢
  exact ⟨rfl, rfl, rfl⟩

/-- A positive answer to an ACCEPT is a vote. -/
theorem handleAccept_ok {id : NodeID} {msg : Message} {disk : ℕ}
    (hok : (n.handleAccept id msg disk).2.ok = true) :
    .voted ⟨msg.slot, msg.ballot, msg.command⟩ ∈ (n.handleAccept id msg disk).1.history := by
  unfold handleAccept at hok ⊢
  dsimp only at hok ⊢
  split_ifs at hok ⊢ <;> simp

end Node

end PaxosPayments.Paxos
