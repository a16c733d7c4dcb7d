import PaxosPayments.Foundations.Voting
import PaxosPayments.Paxos.Outcome

/-!
# The shape of a round

What holds of every round of broadcasts whatever the replicas do: its requests go to peers other
than its owner, a reply carries the id of the replica that gave it, and no replica is counted twice.
So the positive replies of a round that reached the quorum, with the owner, are a majority of the
group (`Round.Form.quorum`). The invariant is `Form`, and `Form.step` says that every step keeps it.
-/

namespace PaxosPayments.Paxos

/-- The majorities of the group. -/
def Config.quorums (cfg : Config) : Voting.Quorums NodeID :=
  Voting.majorities cfg.peers.toFinset

/-- The shape of one round. -/
structure Round.Form (cfg : Config) (r : Round) : Prop where
  owner : r.owner ∈ cfg.peers
  target : ∀ p, r.rpc p ≠ .idle → p ∈ cfg.peers ∧ p ≠ r.owner
  answered : ∀ p m, r.rpc p = .answered m → m.sender = p
  collected : ∀ m ∈ r.replies, r.rpc m.sender = .collected
  distinct : (r.replies.map (·.sender)).Nodup
  job : ∀ entry j, r.task = .accept entry j → j.owner = r.owner

/-- The replicas that are counted in a round: its owner and those that agreed. -/
def Round.voters (r : Round) : Finset NodeID :=
  (r.owner :: (r.replies.filter (·.ok)).map (·.sender)).toFinset

theorem Round.mem_voters {r : Round} {a : NodeID} :
    a ∈ r.voters ↔ a = r.owner ∨ ∃ m ∈ r.replies, m.ok = true ∧ m.sender = a := by
  simp only [Round.voters, List.mem_toFinset, List.mem_cons, List.mem_map, List.mem_filter,
    and_assoc]

theorem Round.Form.sender {cfg : Config} {r : Round} (h : r.Form cfg) {m : Message}
    (hm : m ∈ r.replies) : m.sender ∈ cfg.peers ∧ m.sender ≠ r.owner :=
  h.target _ (by rw [h.collected m hm]; simp)

theorem Round.Form.voters_subset {cfg : Config} {r : Round} (h : r.Form cfg) :
    r.voters ⊆ cfg.peers.toFinset := by
  intro a ha
  rw [List.mem_toFinset]
  rcases Round.mem_voters.mp ha with rfl | ⟨m, hm, -, rfl⟩
  · exact h.owner
  · exact (h.sender hm).1

/-- Nobody is counted twice. -/
theorem Round.Form.card_voters {cfg : Config} {r : Round} (h : r.Form cfg) :
    r.voters.card = ReplicaGroup.votes r.replies := by
  have hsub : (r.replies.filter (·.ok)).Sublist r.replies := List.filter_sublist
  have hnodup : (r.owner :: (r.replies.filter (·.ok)).map (·.sender)).Nodup := by
    rw [List.nodup_cons]
    refine ⟨fun ho => ?_, h.distinct.sublist (hsub.map _)⟩
    obtain ⟨m, hm, heq⟩ := List.mem_map.mp ho
    exact (h.sender (hsub.subset hm)).2 heq
  rw [Round.voters, List.toFinset_card_of_nodup hnodup, List.length_cons, List.length_map,
    ReplicaGroup.votes, add_comm]

/-- **The replies that reach the quorum come from a majority**, the owner included. -/
theorem Round.Form.quorum {cfg : Config} {r : Round} (h : r.Form cfg)
    (hq : cfg.quorum ≤ ReplicaGroup.votes r.replies) : cfg.quorums.IsQuorum r.voters := by
  refine ⟨h.voters_subset, ?_⟩
  rwa [List.toFinset_card_of_nodup cfg.nodup, ← majority_le_iff, h.card_voters]

theorem Round.Form.answer {cfg : Config} {r : Round} (h : r.Form cfg) {p : NodeID} {reply : Message}
    (hsent : r.rpc p = .sent) (hsender : reply.sender = p) : (r.answer p reply).Form cfg := by
  refine ⟨h.owner, fun q hq => ?_, fun q m hm => ?_, fun m hm => ?_, h.distinct, h.job⟩
  · by_cases hqp : q = p
    · exact hqp ▸ h.target p (by rw [hsent]; simp)
    · exact h.target q (by simpa [Round.answer, hqp] using hq)
  · by_cases hqp : q = p
    · subst hqp
      simp only [Round.answer, Function.update_self, Rpc.answered.injEq] at hm
      rw [← hm, hsender]
    · exact h.answered q m (by simpa [Round.answer, hqp] using hm)
  · have hc := h.collected m hm
    have hne : m.sender ≠ p := fun he => by rw [he, hsent] at hc; simp at hc
    simpa [Round.answer, hne] using hc

/-- The reply collected now is the first from its sender. -/
theorem Round.Form.collect {cfg : Config} {r : Round} (h : r.Form cfg) {p : NodeID}
    {reply : Message} (hrpc : r.rpc p = .answered reply) : (r.collect p reply).Form cfg := by
  have hsender := h.answered p reply hrpc
  have hne : ∀ m ∈ r.replies, m.sender ≠ p := by
    intro m hm he
    have hc := h.collected m hm
    rw [he, hrpc] at hc
    simp at hc
  refine ⟨h.owner, fun q hq => ?_, fun q m hm => ?_, fun m hm => ?_, ?_, h.job⟩
  · by_cases hqp : q = p
    · exact hqp ▸ h.target p (by rw [hrpc]; simp)
    · exact h.target q (by simpa [Round.collect, hqp] using hq)
  · by_cases hqp : q = p
    · simp [Round.collect, hqp] at hm
    · exact h.answered q m (by simpa [Round.collect, hqp] using hm)
  · simp only [Round.collect, List.mem_append, List.mem_singleton] at hm ⊢
    rcases hm with hm | rfl
    · simpa [hne m hm] using h.collected m hm
    · simp [hsender]
  · simp only [Round.collect, List.map_append, List.map_singleton, List.nodup_append]
    refine ⟨h.distinct, by simp, fun a ha b hb => ?_⟩
    obtain ⟨m, hm, rfl⟩ := List.mem_map.mp ha
    obtain rfl : b = p := by simpa [hsender] using hb
    exact hne m hm

namespace Node

@[simp] theorem handle_sender (id : NodeID) (n : Node) (msg : Message) (disk : ℕ) :
    (n.handle id msg disk).2.1.sender = id := by
  unfold handle
  cases msg.kind with
  | prepare => simp only [handlePrepare]; split_ifs <;> rfl
  | accept => simp only [handleAccept]; split_ifs <;> rfl
  | commit => simp only [handleCommit]; split_ifs <;> rfl
  | catchUp => rfl
  | ping => rfl
  | promise => rfl
  | accepted => rfl

theorem handle_fetch {id : NodeID} {n : Node} {msg : Message} {disk : ℕ} {f : Fetch}
    (h : (n.handle id msg disk).2.2 = some f) :
    msg.kind = .commit ∧ f = ⟨msg.sender, uint64Succ n.appliedIndex, msg.commitIndex⟩ := by
  unfold handle at h
  cases hk : msg.kind with
  | commit =>
    simp only [hk, handleCommit] at h
    split_ifs at h
    simpa using h.symm
  | _ => simp [hk] at h

end Node

/-! ## The invariant -/

/-- Every round has its shape, and the goroutines belong to members of the group. -/
structure Form (cfg : Config) (g : ReplicaGroup) : Prop where
  rounds : ∀ rid r, g.rounds rid = some r → r.Form cfg
  jobs : ∀ jid j, g.jobs jid = some j → j.owner ∈ cfg.peers
  candidacies : ∀ cid c, g.candidacies cid = some c → c.owner ∈ cfg.peers

namespace Form

open ReplicaGroup

variable {cfg : Config} {g : ReplicaGroup}

theorem init (cfg : Config) : Form cfg ReplicaGroup.init where
  rounds := by simp [ReplicaGroup.init]
  jobs := by simp [ReplicaGroup.init]
  candidacies := by simp [ReplicaGroup.init]

theorem setNode (h : Form cfg g) (id : NodeID) (n : Node) : Form cfg (g.setNode id n) :=
  ⟨h.rounds, h.jobs, h.candidacies⟩

theorem assign (h : Form cfg g) (es : List Entry) : Form cfg (g.assign es) :=
  ⟨h.rounds, h.jobs, h.candidacies⟩

theorem issue (h : Form cfg g) (e : Entry) : Form cfg (g.issue e) :=
  ⟨h.rounds, h.jobs, h.candidacies⟩

theorem setRound (h : Form cfg g) (rid : ℕ) {r : Round} (hr : r.Form cfg) :
    Form cfg (g.setRound rid r) := by
  refine ⟨fun rid' r' hr' => ?_, h.jobs, h.candidacies⟩
  simp only [ReplicaGroup.setRound, Function.update_apply] at hr'
  split_ifs at hr'
  · obtain rfl := Option.some.inj hr'
    exact hr
  · exact h.rounds rid' r' hr'

theorem openRound (h : Form cfg g) {owner : NodeID} {targets : List NodeID} {task : Task}
    (ho : owner ∈ cfg.peers) (ht : ∀ p ∈ targets, p ∈ cfg.peers ∧ p ≠ owner)
    (hj : ∀ entry j, task = .accept entry j → j.owner = owner) :
    Form cfg (g.openRound owner targets task) := by
  have hr : (⟨owner, task, fun p => if p ∈ targets then .sent else .idle, [], false⟩ :
      Round).Form cfg := by
    refine ⟨ho, fun p hp => ?_, fun p m hm => ?_, by simp, by simp, hj⟩
    · by_cases hmem : p ∈ targets
      · exact ht p hmem
      · simp [hmem] at hp
    · dsimp only at hm
      split_ifs at hm
  exact ⟨(h.setRound g.fresh hr).rounds, h.jobs, h.candidacies⟩

theorem broadcast (h : Form cfg g) {owner : NodeID} {task : Task} (ho : owner ∈ cfg.peers)
    (hj : ∀ entry j, task = .accept entry j → j.owner = owner) :
    Form cfg (g.broadcast cfg owner task) :=
  h.openRound ho (fun p hp => by simpa using List.mem_filter.mp hp) hj

theorem addJob (h : Form cfg g) {j : Job} (hj : j.owner ∈ cfg.peers) : Form cfg (g.addJob j) := by
  refine ⟨h.rounds, fun jid j' hj' => ?_, h.candidacies⟩
  simp only [ReplicaGroup.addJob, Function.update_apply] at hj'
  split_ifs at hj'
  · obtain rfl := Option.some.inj hj'
    exact hj
  · exact h.jobs jid j' hj'

theorem dropJob (h : Form cfg g) (jid : ℕ) : Form cfg (g.dropJob jid) := by
  refine ⟨h.rounds, fun jid' j' hj' => ?_, h.candidacies⟩
  simp only [ReplicaGroup.dropJob, Function.update_apply] at hj'
  split_ifs at hj'
  exact h.jobs jid' j' hj'

theorem addCandidacy (h : Form cfg g) {c : Candidacy} (hc : c.owner ∈ cfg.peers) :
    Form cfg (g.addCandidacy c) := by
  refine ⟨h.rounds, h.jobs, fun cid c' hc' => ?_⟩
  simp only [ReplicaGroup.addCandidacy, Function.update_apply] at hc'
  split_ifs at hc'
  · obtain rfl := Option.some.inj hc'
    exact hc
  · exact h.candidacies cid c' hc'

theorem dropCandidacy (h : Form cfg g) (cid : ℕ) : Form cfg (g.dropCandidacy cid) := by
  refine ⟨h.rounds, h.jobs, fun cid' c' hc' => ?_⟩
  simp only [ReplicaGroup.dropCandidacy, Function.update_apply] at hc'
  split_ifs at hc'
  exact h.candidacies cid' c' hc'

theorem continueJob (h : Form cfg g) {j : Job} (hj : j.owner ∈ cfg.peers) :
    Form cfg (g.continueJob j) := by
  unfold ReplicaGroup.continueJob
  cases j.caller with
  | propose => exact h
  | recovery best maxSlot =>
    dsimp only
    split_ifs
    · exact h.addJob hj
    · exact h

theorem winCampaign (h : Form cfg g) {id : NodeID} (hid : id ∈ cfg.peers) (next : Ballot)
    (first : ℕ) (replies : List Message) : Form cfg (g.winCampaign id next first replies) := by
  unfold ReplicaGroup.winCampaign
  dsimp only
  split_ifs
  · exact ((h.setNode _ _).assign _).addJob hid
  · exact (h.setNode _ _).assign _

theorem answer (h : Form cfg g) {rid disk : ℕ} {p : NodeID} {r : Round}
    (hr : g.rounds rid = some r) (hsent : r.rpc p = .sent) :
    Form cfg ((g.setNode p ((g.nodes p).handle p (r.task.request r.owner) disk).1).setRound rid
      (r.answer p ((g.nodes p).handle p (r.task.request r.owner) disk).2.1)) :=
  (h.setNode _ _).setRound rid ((h.rounds rid r hr).answer hsent (Node.handle_sender ..))

theorem close (h : Form cfg g) {rid : ℕ} {r : Round} (hr : g.pending rid = some r) :
    Form cfg (g.setRound rid r.close) := by
  have hf := h.rounds rid r (pending_eq_some.mp hr).1
  exact h.setRound rid ⟨hf.owner, hf.target, hf.answered, hf.collected, hf.distinct, hf.job⟩

/-- **Every step keeps the shape of the rounds.** -/
theorem step (h : Form cfg g) {a : Action} {g' : ReplicaGroup} (ho : Outcome cfg g a g') :
    Form cfg g' := by
  cases ho with
  | campaign hid => exact (h.setNode _ _).broadcast hid (by simp)
  | prepare hc =>
    exact ((h.dropCandidacy _).setNode _ _).broadcast (h.candidacies _ _ hc) (by simp)
  | noPrepare => exact (h.dropCandidacy _).setNode _ _
  | propose hid => exact ((h.setNode _ _).assign _).addJob hid
  | replicate hj =>
    refine (((h.dropJob _).setNode _ _).issue _).broadcast (h.jobs _ _ hj) ?_
    rintro entry j' he
    simp only [Task.accept.injEq] at he
    rw [he.2]
  | noReplicate => exact (h.dropJob _).setNode _ _
  | heartbeat hid => exact h.broadcast hid (by simp)
  | apply => exact h.setNode _ _
  | answer hr hsent => exact h.answer hr hsent
  | @fetch rid disk p r f hr hsent hf =>
    obtain ⟨-, rfl⟩ := Node.handle_fetch hf
    have hsender : (r.task.request r.owner).sender = r.owner := by cases r.task <;> rfl
    have hfr := h.rounds rid r hr
    have hp := hfr.target p (by rw [hsent]; simp)
    refine (h.answer hr hsent).openRound hp.1 (fun q hq => ?_) (by simp)
    obtain rfl : q = r.owner := by simpa [hsender] using hq
    exact ⟨hfr.owner, hp.2.symm⟩
  | collect hr hrpc => exact h.setRound _ ((h.rounds _ _ (pending_eq_some.mp hr).1).collect hrpc)
  | stop hr => exact (h.close hr).setNode _ _
  | choose hr => exact (h.close hr).addCandidacy (h.rounds _ _ (pending_eq_some.mp hr).1).owner
  | lose hr => exact (h.close hr).setNode _ _
  | win hr =>
    exact (h.close hr).winCampaign (h.rounds _ _ (pending_eq_some.mp hr).1).owner _ _ _
  | @commit rid disk expired r entry j hr ht =>
    have hf := h.rounds rid r (pending_eq_some.mp hr).1
    exact ((h.close hr).setNode _ _).continueJob (hf.job entry j ht ▸ hf.owner)
  | learn hr => exact (h.close hr).setNode _ _

end Form

end PaxosPayments.Paxos
