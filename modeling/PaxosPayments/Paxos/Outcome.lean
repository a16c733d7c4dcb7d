import PaxosPayments.Paxos.Group

/-!
# What one step can do

`Outcome cfg g a g'` lists the ways in which an action `a` can lead from `g` to `g'`, each with the
resulting state as a composition of elementary updates. `Outcome.of_step` says that nothing else
happens. The invariants of a group are proved by cases on the outcome, so that the bodies of
`campaign`, `replicate` and the rest are taken apart only here.

Several branches of the code do no more than make a replica step down: a lost campaign, a failed
write, a superseded leader, a leader without a quorum. They are one outcome for each kind of
goroutine that ends this way (`Node.StepsDown`).
-/

namespace PaxosPayments.Paxos

/-- The replica steps down, or is left alone. -/
def Node.StepsDown (n n' : Node) : Prop := n' = n ∨ ∃ b disk, n' = n.stepDown b disk

theorem Node.stepDown_zero (n : Node) (disk : ℕ) :
    n.stepDown Ballot.zero disk = { n with role := .follower } := by
  simp [Node.stepDown, Ballot.isZero, Ballot.zero]

theorem Node.stepDown_role (n : Node) (b : Ballot) (disk : ℕ) :
    (n.stepDown b disk).role = .follower := by
  unfold Node.stepDown
  dsimp only
  split_ifs <;> rfl

theorem Node.StepsDown.committed {n n' : Node} (h : n.StepsDown n') :
    n'.committed = n.committed := by
  rcases h with rfl | ⟨b, disk, rfl⟩
  · rfl
  · unfold Node.stepDown
    dsimp only
    split_ifs <;> rfl

/-- Stepping down a second time, with no ballot to record, changes nothing. -/
theorem Node.stepDown_stepDown (n : Node) (b : Ballot) (disk disk' : ℕ) :
    (n.stepDown b disk).stepDown Ballot.zero disk' = n.stepDown b disk := by
  rw [Node.stepDown_zero, ← Node.stepDown_role n b disk]

namespace ReplicaGroup

theorem pending_eq_some {g : ReplicaGroup} {rid : ℕ} {r : Round} :
    g.pending rid = some r ↔ g.rounds rid = some r ∧ r.concluded = false := by
  unfold pending
  cases g.rounds rid with
  | none => simp
  | some r' =>
    cases hc : r'.concluded
    · simp only [hc, Bool.false_eq_true, if_false, Option.some.injEq]
      exact ⟨fun he => ⟨he, he ▸ hc⟩, And.left⟩
    · simp only [hc, if_true, reduceCtorEq, Option.some.injEq, false_iff]
      rintro ⟨rfl, hf⟩
      simp [hc] at hf

theorem setRound_eq_some {g : ReplicaGroup} {rid rid' : ℕ} {r r' : Round}
    (h : (g.setRound rid r).rounds rid' = some r') :
    rid' = rid ∧ r' = r ∨ rid' ≠ rid ∧ g.rounds rid' = some r' := by
  simp only [setRound, Function.update_apply] at h
  split_ifs at h with hrid
  · exact Or.inl ⟨hrid, (Option.some.inj h).symm⟩
  · exact Or.inr ⟨hrid, h⟩

@[simp] theorem setNode_self (g : ReplicaGroup) (id : NodeID) : g.setNode id (g.nodes id) = g := by
  simp [setNode]

theorem setNode_demote (g : ReplicaGroup) (id : NodeID) (n : Node) :
    (g.setNode id n).demote id = g.setNode id (n.stepDown Ballot.zero 0) := by
  simp [setNode, demote]

/-- The outcomes of the steps of a group. -/
inductive Outcome (cfg : Config) (g : ReplicaGroup) : Action → ReplicaGroup → Prop
  /-- A campaign begins with a probe. -/
  | campaign {id : NodeID} (hid : id ∈ cfg.peers) (hr : (g.nodes id).role ≠ .leader) :
    Outcome cfg g (.campaign id)
      ((g.setNode id { g.nodes id with role := .candidate }).broadcast cfg id .probe)
  /-- The ballot of a campaign is promised and sent. -/
  | prepare {cid disk : ℕ} {c : Candidacy} (hc : g.candidacies cid = some c) :
    Outcome cfg g (.prepare cid disk)
      (((g.dropCandidacy cid).setNode c.owner ((g.nodes c.owner).promise c.next)).broadcast cfg
        c.owner (.prepare c.next (uint64Succ (g.nodes c.owner).appliedIndex)))
  /-- The ballot of a campaign cannot be written. -/
  | noPrepare {cid disk : ℕ} {c : Candidacy} {n : Node} (hc : g.candidacies cid = some c)
      (hn : (g.nodes c.owner).StepsDown n) :
    Outcome cfg g (.prepare cid disk) ((g.dropCandidacy cid).setNode c.owner n)
  /-- A slot is handed out. -/
  | propose {id : NodeID} {command : Command} (hid : id ∈ cfg.peers)
      (hl : (g.nodes id).role = .leader) :
    Outcome cfg g (.propose id command)
      (((g.setNode id
          { g.nodes id with nextSlot := uint64Succ (g.nodes id).nextSlot }).assign
        [⟨(g.nodes id).nextSlot, (g.nodes id).ballot, command⟩]).addJob
        ⟨id, .propose, (g.nodes id).nextSlot, command, (g.nodes id).ballot⟩)
  /-- A leader votes for an entry and sends it. -/
  | replicate {jid disk : ℕ} {j : Job} (hj : g.jobs jid = some j)
      (hl : (g.nodes j.owner).role = .leader) :
    Outcome cfg g (.replicate jid disk)
      ((((g.dropJob jid).setNode j.owner
          ((g.nodes j.owner).vote ⟨j.slot, (g.nodes j.owner).ballot, j.command⟩)).issue
        ⟨j.slot, (g.nodes j.owner).ballot, j.command⟩).broadcast cfg j.owner
        (.accept ⟨j.slot, (g.nodes j.owner).ballot, j.command⟩ j))
  /-- A `replicate` ends before its broadcast. -/
  | noReplicate {jid disk : ℕ} {j : Job} {n : Node} (hj : g.jobs jid = some j)
      (hn : (g.nodes j.owner).StepsDown n) :
    Outcome cfg g (.replicate jid disk) ((g.dropJob jid).setNode j.owner n)
  | heartbeat {id : NodeID} (hid : id ∈ cfg.peers) (hl : (g.nodes id).role = .leader) :
    Outcome cfg g (.heartbeat id)
      (g.broadcast cfg id (.heartbeat (g.nodes id).ballot (g.nodes id).appliedIndex))
  | apply {id : NodeID} {n : Node} (hn : (g.nodes id).applyNext = some n) :
    Outcome cfg g (.apply id) (g.setNode id n)
  /-- A request is handled. -/
  | answer {rid disk : ℕ} {p : NodeID} {r : Round} (hr : g.rounds rid = some r)
      (hsent : r.rpc p = .sent)
      (hf : ((g.nodes p).handle p (r.task.request r.owner) disk).2.2 = none) :
    Outcome cfg g (.deliver rid p disk)
      ((g.setNode p ((g.nodes p).handle p (r.task.request r.owner) disk).1).setRound rid
        (r.answer p ((g.nodes p).handle p (r.task.request r.owner) disk).2.1))
  /-- A request is handled and starts a catch-up. -/
  | fetch {rid disk : ℕ} {p : NodeID} {r : Round} {f : Node.Fetch} (hr : g.rounds rid = some r)
      (hsent : r.rpc p = .sent)
      (hf : ((g.nodes p).handle p (r.task.request r.owner) disk).2.2 = some f) :
    Outcome cfg g (.deliver rid p disk)
      (((g.setNode p ((g.nodes p).handle p (r.task.request r.owner) disk).1).setRound rid
        (r.answer p ((g.nodes p).handle p (r.task.request r.owner) disk).2.1)).openRound p
        [f.source] (.catchUp f.first f.commitIndex))
  | collect {rid : ℕ} {p : NodeID} {r : Round} {reply : Message} (hr : g.pending rid = some r)
      (hrpc : r.rpc p = .answered reply) :
    Outcome cfg g (.collect rid p) (g.setRound rid (r.collect p reply))
  /-- A round ends with no more than a step down. -/
  | stop {rid disk : ℕ} {expired : Bool} {r : Round} {id : NodeID} {n : Node}
      (hr : g.pending rid = some r) (hn : (g.nodes id).StepsDown n) :
    Outcome cfg g (.conclude rid expired disk) ((g.setRound rid r.close).setNode id n)
  /-- A campaign that reached a quorum chooses its ballot. -/
  | choose {rid disk : ℕ} {expired : Bool} {r : Round} (hr : g.pending rid = some r)
      (ht : r.task = .probe) (hc : (g.nodes r.owner).role = .candidate) :
    Outcome cfg g (.conclude rid expired disk)
      ((g.setRound rid r.close).addCandidacy
        ⟨r.owner, ⟨uint64Succ (g.nodes r.owner).log.promised.num, r.owner⟩⟩)
  /-- A lost campaign adopts a higher ballot. -/
  | lose {rid disk first : ℕ} {expired : Bool} {r : Round} {next : Ballot}
      (hr : g.pending rid = some r) (ht : r.task = .prepare next first)
      (hq : votes r.replies < cfg.quorum) (hlt : next < highest next r.replies) :
    Outcome cfg g (.conclude rid expired disk)
      ((g.setRound rid r.close).setNode r.owner
        { (g.nodes r.owner).promise (highest next r.replies) with role := .follower })
  | win {rid disk first : ℕ} {expired : Bool} {r : Round} {next : Ballot}
      (hr : g.pending rid = some r) (ht : r.task = .prepare next first)
      (hq : cfg.quorum ≤ votes r.replies) :
    Outcome cfg g (.conclude rid expired disk)
      ((g.setRound rid r.close).winCampaign r.owner next first r.replies)
  /-- A slot is committed by its leader. -/
  | commit {rid disk : ℕ} {expired : Bool} {r : Round} {entry : Entry} {j : Job}
      (hr : g.pending rid = some r) (ht : r.task = .accept entry j)
      (hq : cfg.quorum ≤ votes r.replies) :
    Outcome cfg g (.conclude rid expired disk)
      (((g.setRound rid r.close).setNode j.owner
        ((g.nodes j.owner).markCommitted [entry.slot])).continueJob j)
  /-- The end of a catch-up. -/
  | learn {rid disk first commitIndex : ℕ} {expired : Bool} {r : Round}
      (hr : g.pending rid = some r) (ht : r.task = .catchUp first commitIndex) :
    Outcome cfg g (.conclude rid expired disk)
      ((g.setRound rid r.close).setNode r.owner
        ((g.nodes r.owner).concludeCatchUp first commitIndex r.replies.head? disk))

namespace Outcome

variable {cfg : Config} {g g' : ReplicaGroup}

/-- A failed `replicate` makes its leader step down at most. -/
theorem fail_eq (g : ReplicaGroup) (j : Job) :
    ∃ n, (g.nodes j.owner).StepsDown n ∧ g.fail j = g.setNode j.owner n := by
  unfold fail
  cases j.caller with
  | propose => exact ⟨_, Or.inr ⟨_, _, rfl⟩, rfl⟩
  | recovery best maxSlot => exact ⟨_, Or.inl rfl, (g.setNode_self _).symm⟩

theorem of_deliver {rid disk : ℕ} {p : NodeID} (hs : g.deliver rid p disk = some g') :
    Outcome cfg g (.deliver rid p disk) g' := by
  unfold deliver at hs
  split at hs
  · simp at hs
  rename_i r hr
  split_ifs at hs with hsent
  rw [not_not] at hsent
  dsimp only at hs
  split at hs <;> obtain rfl := Option.some.inj hs
  · rename_i hf
    exact .answer hr hsent hf
  · rename_i f hf
    exact .fetch hr hsent hf

theorem of_afterProbe {rid disk : ℕ} {expired : Bool} {r : Round} (hr : g.pending rid = some r)
    (ht : r.task = .probe) :
    Outcome cfg g (.conclude rid expired disk)
      ((g.setRound rid r.close).afterProbe cfg r.owner r.replies) := by
  unfold afterProbe
  split_ifs with h₁ h₂
  · exact .stop hr (Or.inr ⟨_, _, rfl⟩)
  · rw [← (g.setRound rid r.close).setNode_self r.owner]
    exact .stop hr (Or.inl rfl)
  · exact .choose hr ht (not_not.mp h₂)

theorem of_tally {rid disk first : ℕ} {expired : Bool} {r : Round} {next : Ballot}
    (hr : g.pending rid = some r) (ht : r.task = .prepare next first) :
    Outcome cfg g (.conclude rid expired disk)
      ((g.setRound rid r.close).tally cfg r.owner next first r.replies disk) := by
  unfold tally
  split_ifs with hq
  · unfold loseCampaign
    dsimp only
    rw [setNode_demote]
    split_ifs with hc
    · rw [Node.stepDown_zero]
      exact .lose hr ht hq ((Ballot.less_iff _ _).mp hc.1)
    · exact .stop hr (Or.inr ⟨_, _, rfl⟩)
  · exact .win hr ht (not_lt.mp hq)

theorem of_concludeReplicate {rid disk : ℕ} {expired : Bool} {r : Round} {entry : Entry} {j : Job}
    (hr : g.pending rid = some r) (ht : r.task = .accept entry j) :
    Outcome cfg g (.conclude rid expired disk)
      ((g.setRound rid r.close).concludeReplicate cfg entry j r.replies disk) := by
  unfold concludeReplicate
  split
  · rename_i m _
    have hdown : (g.nodes j.owner).StepsDown ((g.nodes j.owner).stepDown m.ballot disk) :=
      Or.inr ⟨_, _, rfl⟩
    unfold fail
    cases j.caller with
    | propose =>
      dsimp only
      rw [setNode_demote, Node.stepDown_stepDown]
      exact .stop hr hdown
    | recovery best maxSlot => exact .stop hr hdown
  · split_ifs with hq
    · obtain ⟨n, hn, heq⟩ := fail_eq (g.setRound rid r.close) j
      rw [heq]
      exact .stop hr hn
    · exact .commit hr ht (not_lt.mp hq)

theorem of_concludeHeartbeat {rid disk : ℕ} {expired expired' : Bool} {r : Round} {b : Ballot}
    (hr : g.pending rid = some r) :
    Outcome cfg g (.conclude rid expired disk)
      ((g.setRound rid r.close).concludeHeartbeat cfg r.owner b r.replies expired' disk) := by
  have hquiet : Outcome cfg g (.conclude rid expired disk) (g.setRound rid r.close) := by
    rw [← (g.setRound rid r.close).setNode_self r.owner]
    exact .stop hr (Or.inl rfl)
  unfold concludeHeartbeat
  split
  · exact .stop hr (Or.inr ⟨_, _, rfl⟩)
  · split_ifs
    · exact hquiet
    · exact .stop hr (Or.inr ⟨_, _, rfl⟩)
    · exact hquiet

theorem of_conclude {rid disk : ℕ} {expired : Bool}
    (hs : g.conclude cfg rid expired disk = some g') :
    Outcome cfg g (.conclude rid expired disk) g' := by
  unfold conclude at hs
  split at hs
  · simp at hs
  rename_i r hr
  dsimp only at hs
  split at hs <;> rename_i ht <;> obtain rfl := Option.some.inj hs
  · exact of_afterProbe hr ht
  · exact of_tally hr ht
  · exact of_concludeReplicate hr ht
  · exact of_concludeHeartbeat hr
  · exact .learn hr ht

/-- **Every step has one of the outcomes.** -/
theorem of_step {a : Action} (hs : g.step cfg a = some g') : Outcome cfg g a g' := by
  cases a with
  | campaign id =>
    simp only [step, ReplicaGroup.campaign] at hs
    split_ifs at hs with hid
    obtain rfl := Option.some.inj hs
    push Not at hid
    exact .campaign hid.1 hid.2
  | prepare cid disk =>
    simp only [step] at hs
    split at hs
    · simp at hs
    rename_i c hc
    obtain rfl := Option.some.inj hs
    unfold sendPrepare
    split_ifs
    · exact .noPrepare hc (Or.inr ⟨_, _, rfl⟩)
    · exact .prepare hc
  | propose id command =>
    simp only [step, ReplicaGroup.propose] at hs
    split_ifs at hs with hid
    obtain rfl := Option.some.inj hs
    push Not at hid
    exact .propose hid.1 hid.2
  | replicate jid disk =>
    simp only [step] at hs
    split at hs
    · simp at hs
    rename_i j hj
    obtain rfl := Option.some.inj hs
    have hfail : Outcome cfg g (.replicate jid disk) ((g.dropJob jid).fail j) := by
      obtain ⟨n, hn, heq⟩ := fail_eq (g.dropJob jid) j
      rw [heq]
      exact .noReplicate hj hn
    unfold startReplicate
    dsimp only
    split_ifs with hl
    · exact hfail
    · exact hfail
    · exact .replicate hj (not_not.mp hl)
  | heartbeat id =>
    simp only [step, ReplicaGroup.heartbeat] at hs
    split_ifs at hs with hid
    obtain rfl := Option.some.inj hs
    push Not at hid
    exact .heartbeat hid.1 hid.2
  | apply id =>
    simp only [step] at hs
    split at hs
    · simp at hs
    rename_i n hn
    obtain rfl := Option.some.inj hs
    exact .apply hn
  | deliver rid p disk => exact of_deliver hs
  | collect rid p =>
    simp only [step, ReplicaGroup.collect] at hs
    split at hs
    · simp at hs
    rename_i r hr
    split at hs
    · rename_i reply hrpc
      obtain rfl := Option.some.inj hs
      exact .collect hr hrpc
    · simp at hs
  | conclude rid expired disk => exact of_conclude hs

end Outcome

end ReplicaGroup

end PaxosPayments.Paxos
