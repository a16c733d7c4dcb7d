import PaxosPayments.ControlPlane.Reachability
import PaxosPayments.Paxos.Majorities

/-!
# A shard under faults

The replicas of a shard exchange messages over a transport that asks a fault table three times for
each `Send`: when the request leaves, when it arrives (between processes only), and when the reply
comes back. In one process all ask the table of the engine; between processes each asks its own
copy, which the engine pushes and which then agrees with it (`copies_push`). `FaultyGroup` is a
group of replicas with these tables. A replica that is killed goes on running its timers, and only
its messages are stopped.

Whatever the tables say, what the replicas do is a run of the group (`run_group`), so all that is
known of groups holds under faults. What is new is what a cut does. Replicas that are fewer than a
majority and are cut off from the others cannot win an election or commit a slot except with replies
that were let through before the cut, and the rounds that they begin during the cut make them step
down (`minority_powerless`). If none of them led and none was counting promises when the cut began,
none of them leads as long as it lasts (`minority_leaderless`).
-/

namespace PaxosPayments.Paxos

open ReplicaGroup

/-! ## What becomes of a round -/

/-- A round before and after an action. -/
structure Round.Follows (rid : ℕ) (a : Action) (r r' : Round) : Prop where
  owner : r'.owner = r.owner
  task : r'.task = r.task
  collected : ∀ p, r'.rpc p = .collected → r.rpc p = .collected ∨ a = .collect rid p
  concluded : r.concluded = true → r'.concluded = true

/-- No reply of the round has been collected. -/
def Round.Unanswered (r : Round) : Prop := ∀ p, r.rpc p ≠ .collected

namespace Round.Follows

variable {rid : ℕ} {a : Action} {r : Round} {p : NodeID} {m : Message}

theorem refl (rid : ℕ) (a : Action) (r : Round) : r.Follows rid a r :=
  ⟨rfl, rfl, fun _ => Or.inl, id⟩

theorem close : r.Follows rid a r.close := ⟨rfl, rfl, fun _ => Or.inl, fun _ => rfl⟩

theorem answer : r.Follows rid a (r.answer p m) := by
  refine ⟨rfl, rfl, fun q hq => ?_, id⟩
  simp only [Round.answer, Function.update_apply] at hq
  split_ifs at hq
  exact Or.inl hq

theorem collect : r.Follows rid (.collect rid p) (r.collect p m) := by
  refine ⟨rfl, rfl, fun q hq => ?_, id⟩
  simp only [Round.collect, Function.update_apply] at hq
  split_ifs at hq with hqp
  · exact Or.inr (hqp ▸ rfl)
  · exact Or.inl hq

end Round.Follows

namespace ReplicaGroup

variable {cfg : Config} {g g' : ReplicaGroup} {rid rid' : ℕ} {a : Action} {r r' r'' : Round}

theorem round_of_setRound (hr : g.rounds rid = some r) (hf : r.Follows rid a r')
    (h : (g.setRound rid r').rounds rid' = some r'') :
    ∃ r, g.rounds rid' = some r ∧ r.Follows rid' a r'' := by
  rcases setRound_eq_some h with ⟨rfl, rfl⟩ | ⟨-, hold⟩
  · exact ⟨r, hr, hf⟩
  · exact ⟨r'', hold, .refl _ _ _⟩

theorem round_of_openRound {owner : NodeID} {targets : List NodeID} {task : Task}
    (h : (g.openRound owner targets task).rounds rid = some r') :
    (rid = g.fresh ∧ rid < (g.openRound owner targets task).fresh ∧ r'.Unanswered) ∨
      g.rounds rid = some r' := by
  rcases setRound_eq_some h with ⟨rfl, rfl⟩ | ⟨-, hold⟩
  · refine Or.inl ⟨rfl, Nat.lt_succ_self _, fun p => ?_⟩
    dsimp only
    split_ifs <;> simp
  · exact Or.inr hold

/-- **A round that is there after a step was there before, or is new.** -/
theorem Outcome.round (ho : Outcome cfg g a g') (hr' : g'.rounds rid = some r') :
    (rid = g.fresh ∧ rid < g'.fresh ∧ r'.Unanswered) ∨
      ∃ r, g.rounds rid = some r ∧ r.Follows rid a r' := by
  have hsame : g.rounds rid = some r' → ∃ r, g.rounds rid = some r ∧ r.Follows rid a r' :=
    fun h => ⟨r', h, .refl _ _ _⟩
  have hset : ∀ {k : ℕ} {r r'' : Round}, g.rounds k = some r → r.Follows k a r'' →
      (g.setRound k r'').rounds rid = some r' →
      ∃ r, g.rounds rid = some r ∧ r.Follows rid a r' := fun hk hf h => round_of_setRound hk hf h
  cases ho with
  | campaign | prepare | replicate | heartbeat => exact (round_of_openRound hr').imp_right hsame
  | noPrepare | propose | noReplicate | apply => exact Or.inr (hsame hr')
  | answer hr => exact Or.inr (hset hr .answer hr')
  | fetch hr => exact (round_of_openRound hr').imp_right (hset hr .answer)
  | collect hr => exact Or.inr (hset (pending_eq_some.mp hr).1 .collect hr')
  | stop hr | choose hr | lose hr | learn hr =>
    exact Or.inr (hset (pending_eq_some.mp hr).1 .close hr')
  | win hr =>
    rw [winCampaign_rounds] at hr'
    exact Or.inr (hset (pending_eq_some.mp hr).1 .close hr')
  | commit hr =>
    rw [continueJob_rounds] at hr'
    exact Or.inr (hset (pending_eq_some.mp hr).1 .close hr')

theorem Outcome.fresh_le (ho : Outcome cfg g a g') : g.fresh ≤ g'.fresh := by
  cases ho with
  | campaign | prepare | replicate | heartbeat | fetch | propose | choose => exact Nat.le_succ _
  | noPrepare | noReplicate | apply | answer | collect | stop | lose | learn => exact le_rfl
  | win =>
    unfold winCampaign
    dsimp only
    split_ifs
    · exact Nat.le_succ _
    · exact le_rfl
  | @commit _ _ _ _ _ j =>
    unfold continueJob
    cases j.caller with
    | propose => exact le_rfl
    | recovery best maxSlot =>
      dsimp only
      split_ifs
      · exact Nat.le_succ _
      · exact le_rfl

end ReplicaGroup

/-- The tasks whose owner does not lead after them unless there was a quorum. A recovery only ends,
and a leader may go on until its last quorum is too long ago. -/
def Task.resigns (expired : Bool) : Task → Bool
  | .probe | .prepare _ _ => true
  | .accept _ j =>
    match j.caller with
    | .propose => true
    | .recovery _ _ => false
  | .heartbeat _ _ => expired
  | .catchUp _ _ => false

namespace ReplicaGroup

variable {cfg : Config} {g g' : ReplicaGroup} {rid disk : ℕ} {expired : Bool} {r : Round}

theorem votes_le (replies : List Message) : votes replies ≤ replies.length + 1 := by
  have hle := List.length_filter_le (·.ok) replies
  unfold votes
  omega

theorem demote_role (g : ReplicaGroup) (id : NodeID) :
    ((g.demote id).nodes id).role = .follower := by
  simp [demote, setNode, Node.stepDown_role]

/-- **A round without a quorum ends the leadership of its owner.** -/
theorem not_leader_of_conclude (hr : g.pending rid = some r) (hform : r.Form cfg)
    (hfew : r.replies.length + 1 < cfg.quorum) (ht : r.task.resigns expired = true)
    (hs : g.step cfg (.conclude rid expired disk) = some g') :
    (g'.nodes r.owner).role ≠ .leader := by
  have hvotes : votes r.replies < cfg.quorum := (votes_le r.replies).trans_lt hfew
  have hdown : ∀ g : ReplicaGroup, ((g.demote r.owner).nodes r.owner).role ≠ .leader := by
    intro g
    rw [demote_role]
    simp
  simp only [step, conclude, hr] at hs
  cases htask : r.task with
  | probe =>
    rw [htask] at hs
    obtain rfl := Option.some.inj hs
    rw [afterProbe, if_pos hfew]
    exact hdown _
  | prepare next first =>
    rw [htask] at hs
    obtain rfl := Option.some.inj hs
    rw [tally, if_pos hvotes]
    exact hdown _
  | accept entry j =>
    rw [htask] at hs ht
    obtain rfl := Option.some.inj hs
    have howner := hform.job entry j htask
    have hfail : ∀ g : ReplicaGroup, ((g.fail j).nodes r.owner).role ≠ .leader := by
      intro g
      unfold fail
      cases hcaller : j.caller with
      | propose => exact howner ▸ hdown g
      | recovery best maxSlot => simp [Task.resigns, hcaller] at ht
    unfold concludeReplicate
    split
    · exact hfail _
    · rw [if_pos hvotes]
      exact hfail _
  | heartbeat b commitIndex =>
    rw [htask] at hs ht
    obtain rfl := Option.some.inj hs
    unfold concludeHeartbeat
    split
    · simp [setNode, Node.stepDown_role]
    · rw [if_neg (not_le.mpr hvotes)]
      split_ifs with hexpired
      · exact hdown _
      · exact fun hl => hexpired ⟨hl, ht⟩
  | catchUp first commitIndex =>
    rw [htask] at ht
    cases ht

end ReplicaGroup

/-- The owner and those whose replies were collected are all different. -/
theorem Round.Form.length_replies {cfg : Config} {r : Round} (h : r.Form cfg) :
    r.replies.length + 1 = (insert r.owner (r.replies.map (·.sender)).toFinset).card := by
  have howner : r.owner ∉ (r.replies.map (·.sender)).toFinset := by
    rw [List.mem_toFinset, List.mem_map]
    rintro ⟨m, hm, heq⟩
    exact (h.sender hm).2 heq
  rw [Finset.card_insert_of_notMem howner, List.toFinset_card_of_nodup h.distinct, List.length_map]

end PaxosPayments.Paxos

namespace PaxosPayments.ControlPlane

open Paxos (NodeID Round Task ReplicaGroup)

/-! ## The transport -/

inductive Transport
  /-- All replicas in one process, with the table of the engine. -/
  | inproc
  /-- A process for each replica, with a table of its own. -/
  | grpc
  deriving DecidableEq

/-- How far the transport is with a `Send`. -/
inductive Leg
  | waiting
  /-- The request has left. -/
  | sent
  /-- The request may be handled. -/
  | received
  /-- The reply has been let through. -/
  | returned
  deriving DecidableEq

structure FaultyGroup where
  group : ReplicaGroup
  /-- The table of the engine. -/
  faults : Faults
  /-- The tables of the node processes. -/
  copies : NodeID → Faults
  leg : ℕ → NodeID → Leg

namespace FaultyGroup

def init : FaultyGroup := ⟨.init, .new, fun _ => .new, fun _ _ => .waiting⟩

/-- The table that a replica asks. -/
def table (s : FaultyGroup) (mode : Transport) (p : NodeID) : Faults :=
  match mode with
  | .inproc => s.faults
  | .grpc => s.copies p

def setLeg (s : FaultyGroup) (rid : ℕ) (p : NodeID) (l : Leg) : FaultyGroup :=
  { s with leg := Function.update s.leg rid (Function.update (s.leg rid) p l) }

/-- The first check of `Send`. -/
def send (mode : Transport) (s : FaultyGroup) (rid : ℕ) (p : NodeID) : Option FaultyGroup :=
  match s.group.rounds rid with
  | none => none
  | some r =>
    if r.rpc p = .sent ∧ s.leg rid p = .waiting ∧
        (s.table mode r.owner).check r.owner p = none then
      some (s.setLeg rid p .sent)
    else none

/-- The request arrives. A node process checks it. -/
def receive (mode : Transport) (s : FaultyGroup) (rid : ℕ) (p : NodeID) : Option FaultyGroup :=
  match s.group.rounds rid with
  | none => none
  | some r =>
    if s.leg rid p = .sent ∧ (mode = .grpc → (s.copies p).check r.owner p = none) then
      some (s.setLeg rid p .received)
    else none

/-- The last check of `Send`, when the reply is there. -/
def letThrough (mode : Transport) (s : FaultyGroup) (rid : ℕ) (p : NodeID) : Option FaultyGroup :=
  match s.group.rounds rid with
  | none => none
  | some r =>
    if r.rpc p ≠ .sent ∧ s.leg rid p = .received ∧
        (s.table mode r.owner).check p r.owner = none then
      some (s.setLeg rid p .returned)
    else none

/-- Only a request that has arrived is handled, and only a reply that was let through is
collected. -/
def admits (s : FaultyGroup) : ReplicaGroup.Action → Bool
  | .deliver rid p _ => s.leg rid p = .received
  | .collect rid p => s.leg rid p = .returned
  | _ => true

inductive Action
  | send (rid : ℕ) (p : NodeID)
  | receive (rid : ℕ) (p : NodeID)
  | letThrough (rid : ℕ) (p : NodeID)
  | replica (a : ReplicaGroup.Action)
  | kill (id : String)
  | revive (id : String)
  | partition (groups : List (List String))
  | heal
  /-- The table of the engine reaches a node process. -/
  | push (p : NodeID)
  /-- The node processes outlive the gateway. -/
  | restart

def step (mode : Transport) (cfg : Paxos.Config) (s : FaultyGroup) : Action → Option FaultyGroup
  | .send rid p => s.send mode rid p
  | .receive rid p => s.receive mode rid p
  | .letThrough rid p => s.letThrough mode rid p
  | .replica a =>
    if s.admits a then
      match s.group.step cfg a with
      | some g => some { s with group := g }
      | none => none
    else none
  | .kill id => some { s with faults := s.faults.kill id }
  | .revive id => some { s with faults := s.faults.revive id }
  | .partition groups => some { s with faults := s.faults.partition groups }
  | .heal => some { s with faults := s.faults.heal }
  | .push p =>
    some { s with copies := Function.update s.copies p ((s.copies p).restore s.faults.state) }
  | .restart => if mode = .grpc then some { s with faults := .new } else none

variable {mode : Transport} {cfg : Paxos.Config} {s s' : FaultyGroup} {a : Action}

/-- What a step does to the replicas and to the messages under way. -/
inductive Effect (mode : Transport) (cfg : Paxos.Config) (s s' : FaultyGroup) : Action → Prop
  | replica {b : ReplicaGroup.Action} (hok : s.admits b = true)
      (hb : s.group.step cfg b = some s'.group) (hleg : s'.leg = s.leg)
      (hfaults : s'.faults = s.faults) : Effect mode cfg s s' (.replica b)
  | setLeg {a : Action} {rid : ℕ} {p : NodeID} {r : Round} {l : Leg}
      (hr : s.group.rounds rid = some r)
      (hl : l = .returned → (s.table mode r.owner).check r.owner p = none)
      (hkept : s.leg rid p ≠ .returned) (hs' : s' = s.setLeg rid p l) : Effect mode cfg s s' a
  | table {a : Action} (hg : s'.group = s.group) (hleg : s'.leg = s.leg)
      (hfaults : s.faults.Consistent → s'.faults.Consistent) : Effect mode cfg s s' a

theorem step_replica {b : ReplicaGroup.Action} (hs : s.step mode cfg (.replica b) = some s') :
    s.admits b = true ∧ s.group.step cfg b = some s'.group ∧ s'.leg = s.leg ∧
      s'.faults = s.faults := by
  simp only [step] at hs
  split_ifs at hs with hok
  split at hs
  · rename_i g hg
    obtain rfl := Option.some.inj hs
    exact ⟨hok, hg, rfl, rfl⟩
  · cases hs

theorem Effect.of_step (hs : s.step mode cfg a = some s') : Effect mode cfg s s' a := by
  cases a with
  | send rid p =>
    simp only [step, send] at hs
    split at hs
    · cases hs
    · rename_i r hr
      split_ifs at hs with h
      obtain rfl := Option.some.inj hs
      exact .setLeg hr (by simp) (by simp [h.2.1]) rfl
  | receive rid p =>
    simp only [step, receive] at hs
    split at hs
    · cases hs
    · rename_i r hr
      split_ifs at hs with h
      obtain rfl := Option.some.inj hs
      exact .setLeg hr (by simp) (by simp [h.1]) rfl
  | letThrough rid p =>
    simp only [step, letThrough] at hs
    split at hs
    · cases hs
    · rename_i r hr
      split_ifs at hs with h
      obtain rfl := Option.some.inj hs
      exact .setLeg hr (fun _ => Faults.check_comm.mp h.2.2) (by simp [h.2.1]) rfl
  | replica b =>
    obtain ⟨hok, hb, hleg, hfaults⟩ := step_replica hs
    exact .replica hok hb hleg hfaults
  | kill | revive | push =>
    obtain rfl := Option.some.inj hs
    exact .table rfl rfl id
  | partition | heal =>
    obtain rfl := Option.some.inj hs
    exact .table rfl rfl fun _ => .partition _ _
  | restart =>
    simp only [step] at hs
    split_ifs at hs
    obtain rfl := Option.some.inj hs
    exact .table rfl rfl fun _ => .new

/-- Whoever comes to lead does so in a step of the replicas. -/
theorem replica_of_elected {id : NodeID} {b : Paxos.Ballot} (hs : s.step mode cfg a = some s')
    (he : ReplicaGroup.Elected s.group s'.group id b) :
    ∃ c, a = .replica c ∧ s.group.step cfg c = some s'.group := by
  have hsame : s'.group ≠ s.group := by
    intro hg
    obtain ⟨hl, hb, hnew⟩ := he
    rw [hg] at hl hb
    exact hnew hl hb
  cases Effect.of_step hs with
  | replica _ hb => exact ⟨_, rfl, hb⟩
  | setLeg _ _ _ hs' => exact absurd (by rw [hs']; rfl) hsame
  | table hg => exact absurd hg hsame

/-- What the replicas do under faults is a run of the group. -/
theorem run_group {acts : List Action} (hrun : Run (step mode cfg) always s acts s') :
    ∃ as, Run (ReplicaGroup.step cfg) always s.group as s'.group := by
  have hmatch : ∀ (s : FaultyGroup) (a : Action) (s' : FaultyGroup) (g : ReplicaGroup),
      s.group = g → always s a = true → s.step mode cfg a = some s' →
      ∃ bs g', Run (ReplicaGroup.step cfg) always g bs g' ∧ s'.group = g' := by
    rintro s a s' g rfl - hs
    cases Effect.of_step hs with
    | replica _ hb => exact ⟨[_], _, .cons rfl hb (.nil _), rfl⟩
    | setLeg _ _ _ hs' => exact ⟨[], _, .nil _, by rw [hs']; rfl⟩
    | table hg => exact ⟨[], _, .nil _, hg⟩
  obtain ⟨as, g, hgroup, rfl⟩ := hrun.simulates (R := fun s g => s.group = g) hmatch rfl
  exact ⟨as, hgroup⟩

theorem consistent_step (h : s.faults.Consistent) (hs : s.step mode cfg a = some s') :
    s'.faults.Consistent := by
  cases Effect.of_step hs with
  | replica _ _ _ hfaults => exact hfaults ▸ h
  | setLeg _ _ _ hs' => exact hs' ▸ h
  | table _ _ hfaults => exact hfaults h

/-- **A push makes a node process decide as the engine does.** -/
theorem copies_push {acts : List Action} {p : NodeID}
    (hrun : Run (step mode cfg) always init acts s)
    (hs : s.step mode cfg (.push p) = some s') : s'.copies p = s'.faults := by
  have hconsistent : s.faults.Consistent :=
    hrun.invariant (I := fun s => s.faults.Consistent) (fun _ _ _ h _ hs => consistent_step h hs)
      .new
  obtain rfl := Option.some.inj hs
  exact (Function.update_self ..).trans (Faults.restore_state hconsistent _)

/-! ## Replies that get through -/

/-- Numbers are not used twice, and what is collected was let through. -/
structure Tracked (cfg : Paxos.Config) (s : FaultyGroup) : Prop where
  form : Paxos.Form cfg s.group
  fresh : ∀ rid, s.group.fresh ≤ rid → s.group.rounds rid = none ∧ ∀ p, s.leg rid p = .waiting
  collected : ∀ rid r p, s.group.rounds rid = some r → r.rpc p = .collected →
    s.leg rid p = .returned

theorem setLeg_leg {rid rid' : ℕ} {p p' : NodeID} {l : Leg} :
    (s.setLeg rid p l).leg rid' p' = if rid' = rid ∧ p' = p then l else s.leg rid' p' := by
  by_cases hrid : rid' = rid
  · subst hrid
    by_cases hp : p' = p
    · simp [setLeg, hp]
    · simp [setLeg, hp]
  · simp [setLeg, hrid]

namespace Tracked

theorem init (cfg : Paxos.Config) : Tracked cfg init where
  form := .init cfg
  fresh := fun _ _ => ⟨rfl, fun _ => rfl⟩
  collected := by simp [FaultyGroup.init, ReplicaGroup.init]

theorem lt_fresh (h : Tracked cfg s) {rid : ℕ} {r : Round} (hr : s.group.rounds rid = some r) :
    rid < s.group.fresh := by
  by_contra hle
  rw [(h.fresh rid (not_lt.mp hle)).1] at hr
  cases hr

theorem step (h : Tracked cfg s) (hs : s.step mode cfg a = some s') : Tracked cfg s' := by
  cases Effect.of_step hs with
  | @replica b hok hb hleg =>
    have ho := ReplicaGroup.Outcome.of_step hb
    refine ⟨h.form.step ho, fun rid hrid => ?_, fun rid r p hr hp => ?_⟩
    · obtain ⟨hnone, hwaiting⟩ := h.fresh rid (ho.fresh_le.trans hrid)
      refine ⟨Option.eq_none_iff_forall_ne_some.mpr fun r hr => ?_, hleg ▸ hwaiting⟩
      rcases ho.round hr with ⟨-, hlt, -⟩ | ⟨r₀, hr₀, -⟩
      · exact absurd hrid (not_le.mpr hlt)
      · rw [hnone] at hr₀
        cases hr₀
    · rw [hleg]
      rcases ho.round hr with ⟨-, -, hnew⟩ | ⟨r₀, hr₀, hf⟩
      · exact absurd hp (hnew p)
      · rcases hf.collected p hp with hold | rfl
        · exact h.collected rid r₀ p hr₀ hold
        · exact of_decide_eq_true hok
  | @setLeg _ rid p r l hr _ hkept hs' =>
    subst hs'
    refine ⟨h.form, fun rid' hrid' => ⟨(h.fresh rid' hrid').1, fun p' => ?_⟩,
      fun rid' r' p' hr' hp' => ?_⟩
    · have hne : rid' ≠ rid := fun heq => absurd (h.lt_fresh hr) (not_lt.mpr (heq ▸ hrid'))
      rw [setLeg_leg, if_neg fun hboth => hne hboth.1]
      exact (h.fresh rid' hrid').2 p'
    · have hold := h.collected rid' r' p' hr' hp'
      rw [setLeg_leg, if_neg]
      · exact hold
      · rintro ⟨rfl, rfl⟩
        exact hkept hold
  | table hg hleg =>
    exact ⟨hg ▸ h.form, by rw [hg, hleg]; exact h.fresh, by rw [hg, hleg]; exact h.collected⟩

end Tracked

/-! ## The cut -/

/-- No member of `side` can send to another replica, as far as the tables of the members say. -/
def cutOff (mode : Transport) (cfg : Paxos.Config) (side : Finset NodeID) (s : FaultyGroup)
    (_ : Action) : Bool :=
  ∀ p ∈ side, ∀ q ∈ cfg.peers, q ∉ side → (s.table mode p).check p q ≠ none

/-- The replicas whose replies to a round have been let through. -/
def through (cfg : Paxos.Config) (s : FaultyGroup) (rid : ℕ) : Finset NodeID :=
  cfg.peers.toFinset.filter fun p => s.leg rid p = .returned

/-- What has become of the state `s₀` in which a cut began. -/
structure SinceCut (cfg : Paxos.Config) (side : Finset NodeID) (s₀ s : FaultyGroup) : Prop where
  tracked : Tracked cfg s
  /-- Nothing new gets through to a member of the side. -/
  kept : ∀ rid r p, s.group.rounds rid = some r → r.owner ∈ side → p ∈ cfg.peers → p ∉ side →
    s.leg rid p = .returned → s₀.leg rid p = .returned
  /-- The rounds from before the cut. -/
  begun : ∀ rid r, s.group.pending rid = some r → rid < s₀.group.fresh →
    ∃ r₀, s₀.group.pending rid = some r₀ ∧ r₀.owner = r.owner ∧ r₀.task = r.task
  fresh : s₀.group.fresh ≤ s.group.fresh

namespace SinceCut

variable {side : Finset NodeID} {s₀ : FaultyGroup} {rid : ℕ} {r : Round}

theorem refl (h : Tracked cfg s) : SinceCut cfg side s s where
  tracked := h
  kept := fun _ _ _ _ _ _ _ => id
  begun := fun _ r hr _ => ⟨r, hr, rfl, rfl⟩
  fresh := le_rfl

theorem step (h : SinceCut cfg side s₀ s) (hcut : cutOff mode cfg side s a = true)
    (hs : s.step mode cfg a = some s') : SinceCut cfg side s₀ s' := by
  have htracked := h.tracked.step hs
  cases Effect.of_step hs with
  | @replica b hok hb hleg =>
    have ho := ReplicaGroup.Outcome.of_step hb
    refine ⟨htracked, fun rid r p hr howner hmem hp => ?_, fun rid r hr hlt => ?_,
      h.fresh.trans ho.fresh_le⟩
    · rw [hleg]
      intro hreturned
      rcases ho.round hr with ⟨rfl, -, -⟩ | ⟨r₀, hr₀, hf⟩
      · rw [(h.tracked.fresh _ le_rfl).2 p] at hreturned
        cases hreturned
      · exact h.kept rid r₀ p hr₀ (hf.owner ▸ howner) hmem hp hreturned
    · obtain ⟨hround, hopen⟩ := ReplicaGroup.pending_eq_some.mp hr
      rcases ho.round hround with ⟨rfl, -, -⟩ | ⟨r₁, hr₁, hf⟩
      · exact absurd h.fresh (not_le.mpr hlt)
      · have hopen₁ : r₁.concluded = false := by
          by_contra hclosed
          rw [hf.concluded (Bool.eq_true_of_not_eq_false hclosed)] at hopen
          cases hopen
        obtain ⟨r₀, hr₀, howner, htask⟩ :=
          h.begun rid r₁ (ReplicaGroup.pending_eq_some.mpr ⟨hr₁, hopen₁⟩) hlt
        exact ⟨r₀, hr₀, howner.trans hf.owner.symm, htask.trans hf.task.symm⟩
  | @setLeg _ rid p r l hr hl hkept hs' =>
    subst hs'
    refine ⟨htracked, fun rid' r' p' hr' howner hmem hp' => ?_, h.begun, h.fresh⟩
    rw [setLeg_leg]
    split_ifs with hboth
    · obtain ⟨rfl, rfl⟩ := hboth
      obtain rfl : r' = r := Option.some.inj (hr'.symm.trans hr)
      exact fun hreturned => absurd (hl hreturned) (of_decide_eq_true hcut _ howner _ hmem hp')
    · exact h.kept rid' r' p' hr' howner hmem hp'
  | table hg hleg =>
    refine ⟨htracked, ?_, ?_, hg ▸ h.fresh⟩
    · rw [hg, hleg]
      exact h.kept
    · rw [hg]
      exact h.begun

/-- **Who is counted by a member of the side**: the side, and those who got through before. -/
theorem length_replies_le (h : SinceCut cfg side s₀ s) (hr : s.group.rounds rid = some r)
    (howner : r.owner ∈ side) : r.replies.length + 1 ≤ (side ∪ s₀.through cfg rid).card := by
  have hform := h.tracked.form.rounds rid r hr
  rw [hform.length_replies]
  refine Finset.card_le_card fun p hp => ?_
  rw [Finset.mem_insert, List.mem_toFinset, List.mem_map] at hp
  rw [Finset.mem_union]
  rcases hp with rfl | ⟨m, hm, rfl⟩
  · exact Or.inl howner
  · by_cases hside : m.sender ∈ side
    · exact Or.inl hside
    · have hmem := (hform.sender hm).1
      have hreturned := h.tracked.collected rid r _ hr (hform.collected m hm)
      refine Or.inr (Finset.mem_filter.mpr ⟨List.mem_toFinset.mpr hmem, ?_⟩)
      exact h.kept rid r _ hr howner hmem hside hreturned

/-- A round that is begun during the cut reaches no quorum. -/
theorem few_replies (h : SinceCut cfg side s₀ s) (h₀ : Tracked cfg s₀)
    (hside : side.card < cfg.quorum) (hr : s.group.rounds rid = some r) (howner : r.owner ∈ side)
    (hnew : s₀.group.fresh ≤ rid) : r.replies.length + 1 < cfg.quorum := by
  have hnone : s₀.through cfg rid = ∅ := by
    refine Finset.filter_eq_empty_iff.mpr fun p _ => ?_
    rw [(h₀.fresh rid hnew).2 p]
    simp
  have hle := h.length_replies_le hr howner
  rw [hnone, Finset.union_empty] at hle
  exact hle.trans_lt hside

/-- A round that reaches a quorum during the cut was under way before. -/
theorem begun_of_quorum (h : SinceCut cfg side s₀ s) (h₀ : Tracked cfg s₀)
    (hside : side.card < cfg.quorum) (hr : s.group.pending rid = some r) (howner : r.owner ∈ side)
    (hq : cfg.quorum ≤ ReplicaGroup.votes r.replies) :
    ∃ r₀, s₀.group.pending rid = some r₀ ∧ r₀.owner = r.owner ∧ r₀.task = r.task ∧
      cfg.quorum ≤ (side ∪ s₀.through cfg rid).card := by
  have hround := (ReplicaGroup.pending_eq_some.mp hr).1
  have hvotes := hq.trans (ReplicaGroup.votes_le r.replies)
  have hold : rid < s₀.group.fresh := by
    by_contra hnew
    exact absurd hvotes (not_le.mpr (h.few_replies h₀ hside hround howner (not_lt.mp hnew)))
  obtain ⟨r₀, hr₀, howner₀, htask₀⟩ := h.begun rid r hr hold
  exact ⟨r₀, hr₀, howner₀, htask₀, hvotes.trans (h.length_replies_le hround howner)⟩

end SinceCut

section

variable {side : Finset NodeID} {s₀ : FaultyGroup} {acts₀ acts : List Action}

theorem tracked (hrun : Run (step mode cfg) always init acts s) : Tracked cfg s :=
  hrun.invariant (fun _ _ _ h _ hs => h.step hs) (.init cfg)

theorem sinceCut (hrun₀ : Run (step mode cfg) always init acts₀ s₀)
    (hrun : Run (step mode cfg) (cutOff mode cfg side) s₀ acts s) : SinceCut cfg side s₀ s :=
  hrun.invariant (fun _ _ _ h hcut hs => h.step hcut hs) (.refl (tracked hrun₀))

/-- **A minority that is cut off has no power.** When one of it comes to lead, the step ends its own
campaign that was under way with this ballot when the cut began; when one of it commits a slot by
ending an ACCEPT round, this round was under way with this entry when the cut began; and in both
cases the side and those whose replies to this round had been let through by then are a quorum.
Whoever of it ends a round that was begun during the cut does not lead after it. -/
theorem minority_powerless (hside : side.card < cfg.quorum)
    (hrun₀ : Run (step mode cfg) always init acts₀ s₀)
    (hrun : Run (step mode cfg) (cutOff mode cfg side) s₀ acts s) :
    (∀ a s' id b, s.step mode cfg a = some s' → id ∈ side →
      ReplicaGroup.Elected s.group s'.group id b →
      ∃ rid expired disk r₀ first, a = .replica (.conclude rid expired disk) ∧
        s₀.group.pending rid = some r₀ ∧ r₀.owner = id ∧ r₀.task = .prepare b first ∧
        cfg.quorum ≤ (side ∪ s₀.through cfg rid).card) ∧
    (∀ rid expired disk r entry j s' id t, s.group.pending rid = some r →
      r.task = .accept entry j →
      s.step mode cfg (.replica (.conclude rid expired disk)) = some s' → id ∈ side →
      ReplicaGroup.Marked s.group s'.group id t →
      t = entry.slot ∧ ∃ r₀, s₀.group.pending rid = some r₀ ∧ r₀.owner = id ∧
        r₀.task = .accept entry j ∧ cfg.quorum ≤ (side ∪ s₀.through cfg rid).card) ∧
    ∀ rid r expired disk s', s₀.group.fresh ≤ rid → s.group.pending rid = some r →
      r.owner ∈ side → r.task.resigns expired = true →
      s.step mode cfg (.replica (.conclude rid expired disk)) = some s' →
      (s'.group.nodes r.owner).role ≠ .leader := by
  have h₀ := tracked hrun₀
  have h := sinceCut hrun₀ hrun
  refine ⟨fun a s' id b hs hid he => ?_,
    fun rid expired disk r entry j s' id t hr ht hs hid hm => ?_,
    fun rid r expired disk s' hnew hr howner ht hs => ?_⟩
  · obtain ⟨c, rfl, hc⟩ := replica_of_elected hs he
    obtain ⟨rid, expired, disk, r, first, rfl, hr, rfl, ht, hq⟩ := he.round hc
    obtain ⟨r₀, hr₀, howner₀, htask₀, hthrough⟩ := h.begun_of_quorum h₀ hside hr hid hq
    exact ⟨rid, expired, disk, r₀, first, rfl, hr₀, howner₀, htask₀.trans ht, hthrough⟩
  · obtain ⟨rfl, rfl, hq⟩ := hm.votes hr ht (step_replica hs).2.1
    have hform := h.tracked.form.rounds rid r (ReplicaGroup.pending_eq_some.mp hr).1
    have howner := hform.job entry j ht
    obtain ⟨r₀, hr₀, howner₀, htask₀, hthrough⟩ :=
      h.begun_of_quorum h₀ hside hr (howner ▸ hid) hq
    exact ⟨rfl, r₀, hr₀, howner₀.trans howner.symm, htask₀.trans ht, hthrough⟩
  · have hround := (ReplicaGroup.pending_eq_some.mp hr).1
    have hfew := h.few_replies h₀ hside hround howner hnew
    exact ReplicaGroup.not_leader_of_conclude hr (h.tracked.form.rounds rid r hround) hfew ht
      (step_replica hs).2.1

/-- A round with the replies of `ps`. -/
def exchange (rid : ℕ) (ps : List NodeID) : List Action :=
  ps.flatMap fun p => [.send rid p, .receive rid p, .replica (.deliver rid p 1), .letThrough rid p,
    .replica (.collect rid p)]

/-- An election of `id` with the promises of `ps`; `rid` will be the number of its first round. -/
def election (id : NodeID) (ps : List NodeID) (rid : ℕ) : List Action :=
  [.replica (.campaign id)] ++ exchange rid ps ++
    [.replica (.conclude rid false 1), .replica (.prepare (rid + 1) 1)] ++
    exchange (rid + 2) ps ++ [.replica (.conclude (rid + 2) false 1)]

/-- The leader is cut off, and its process has been told. -/
def leaderAlone : List Action :=
  election "A" ["B"] 0 ++ [.partition [["A"], ["B", "C"]], .push "A"]

/-- The candidate is cut off when the promise of `B` has been let through and is not counted yet. -/
def candidateAlone : List Action :=
  (election "A" ["B"] 0).dropLast.dropLast ++ [.partition [["A"], ["B", "C"]], .push "A"]

/-- The leader steps down at its next heartbeat. The candidate is elected by the promise that came
before the cut. -/
theorem minority_powerless_leaderAlone :
    (∃ s₀ s, Run (step .grpc ReplicaGroup.threeReplicas) always init leaderAlone s₀ ∧
      Run (step .grpc ReplicaGroup.threeReplicas) (cutOff .grpc ReplicaGroup.threeReplicas {"A"})
        s₀ [.replica (.heartbeat "A")] s ∧
      (s.group.nodes "A").role = .leader ∧
      ∃ s', s.step .grpc ReplicaGroup.threeReplicas (.replica (.conclude 3 true 1)) = some s' ∧
        (s'.group.nodes "A").role ≠ .leader) ∧
    ∃ s₀ s s', Run (step .grpc ReplicaGroup.threeReplicas) always init candidateAlone s₀ ∧
      Run (step .grpc ReplicaGroup.threeReplicas) (cutOff .grpc ReplicaGroup.threeReplicas {"A"})
        s₀ [.replica (.collect 2 "B")] s ∧
      s.step .grpc ReplicaGroup.threeReplicas (.replica (.conclude 2 false 1)) = some s' ∧
      ReplicaGroup.Elected s.group s'.group "A" ⟨1, "A"⟩ ∧
      ∃ r₀ first, s₀.group.pending 2 = some r₀ ∧ r₀.owner = "A" ∧
        r₀.task = .prepare ⟨1, "A"⟩ first ∧
        2 ≤ ({"A"} ∪ s₀.through ReplicaGroup.threeReplicas 2).card := by
  let cfg := ReplicaGroup.threeReplicas
  constructor
  · let f (s : FaultyGroup) : Bool := (s.group.nodes "A").role = .leader &&
      (s.group.pending 3).any (fun r => r.owner = "A" && r.task.resigns true) &&
      (s.step .grpc cfg (.replica (.conclude 3 true 1))).isSome
    obtain ⟨s₀, hrun₀, h₀⟩ := Run.exists_of_exec_map (step .grpc cfg) always init leaderAlone
      (fun s => (s.group.fresh, (exec (step .grpc cfg) (cutOff .grpc cfg {"A"}) s
        [.replica (.heartbeat "A")]).map f)) (3, some true) (by decide +kernel)
    obtain ⟨hfresh, hexec⟩ := Prod.mk.inj h₀
    obtain ⟨s, hrun, h⟩ := Run.exists_of_exec_map _ _ _ _ _ _ hexec
    simp only [f, Bool.and_eq_true, Option.any_eq_true, decide_eq_true_eq] at h
    obtain ⟨⟨hrole, r, hr, howner, htask⟩, hstep⟩ := h
    obtain ⟨s', hs'⟩ := Option.isSome_iff_exists.mp hstep
    refine ⟨s₀, s, hrun₀, hrun, hrole, s', hs', ?_⟩
    have hpowerless := (minority_powerless (by decide) hrun₀ hrun).2.2 3 r true 1 s' hfresh.le hr
      (by rw [howner]; decide) htask hs'
    rwa [howner] at hpowerless
  · let f (s : FaultyGroup) : Paxos.Role × Option (Paxos.Role × Paxos.Ballot) :=
      ((s.group.nodes "A").role, (s.step .grpc cfg (.replica (.conclude 2 false 1))).map fun s' =>
        ((s'.group.nodes "A").role, (s'.group.nodes "A").ballot))
    obtain ⟨s₀, hrun₀, hexec⟩ := Run.exists_of_exec_map (step .grpc cfg) always init candidateAlone
      (fun s => (exec (step .grpc cfg) (cutOff .grpc cfg {"A"}) s
        [.replica (.collect 2 "B")]).map f) (some (.candidate, some (.leader, ⟨1, "A"⟩)))
      (by decide +kernel)
    obtain ⟨s, hrun, h⟩ := Run.exists_of_exec_map _ _ _ _ _ _ hexec
    obtain ⟨hrole, hstep⟩ := Prod.mk.inj h
    obtain ⟨s', hs', hafter⟩ := Option.map_eq_some_iff.mp hstep
    obtain ⟨hl, hb⟩ := Prod.mk.inj hafter
    have he : ReplicaGroup.Elected s.group s'.group "A" ⟨1, "A"⟩ := ⟨hl, hb, by simp [hrole]⟩
    obtain ⟨rid, expired, disk, r₀, first, hact, hr₀, howner₀, htask₀, hthrough⟩ :=
      (minority_powerless (by decide) hrun₀ hrun).1 _ s' "A" _ hs' (by decide) he
    obtain ⟨rfl, -, -⟩ := ReplicaGroup.Action.conclude.inj (Action.replica.inj hact)
    have hquorum : cfg.quorum = 2 := by decide
    exact ⟨s₀, s, s', hrun₀, hrun, hs', he, r₀, first, hr₀, howner₀, htask₀, hquorum ▸ hthrough⟩

/-- **A minority that is cut off stays without a leader**, unless one was counting promises. -/
theorem minority_leaderless (hside : side.card < cfg.quorum)
    (hrun₀ : Run (step mode cfg) always init acts₀ s₀)
    (hrun : Run (step mode cfg) (cutOff mode cfg side) s₀ acts s)
    (hcount : ∀ rid r next first, s₀.group.pending rid = some r → r.owner ∈ side →
      r.task ≠ .prepare next first)
    (hnone : ∀ p ∈ side, (s₀.group.nodes p).role ≠ .leader) :
    ∀ p ∈ side, (s.group.nodes p).role ≠ .leader := by
  have h₀ := tracked hrun₀
  refine (hrun.invariant (I := fun s => SinceCut cfg side s₀ s ∧
    ∀ p ∈ side, (s.group.nodes p).role ≠ .leader) (fun s a s' h hcut hs => ?_)
    ⟨.refl h₀, hnone⟩).2
  refine ⟨h.1.step hcut hs, fun p hp hl => ?_⟩
  cases Effect.of_step hs with
  | replica _ hb =>
    have he : ReplicaGroup.Elected s.group s'.group p (s'.group.nodes p).ballot :=
      ⟨hl, rfl, fun hl₀ => absurd hl₀ (h.2 p hp)⟩
    obtain ⟨rid, _, _, r, first, -, hr, rfl, htask, hq⟩ := he.round hb
    obtain ⟨r₀, hr₀, howner₀, htask₀, -⟩ := h.1.begun_of_quorum h₀ hside hr hp hq
    exact hcount rid r₀ _ first hr₀ (howner₀ ▸ hp) (htask₀.trans htask)
  | setLeg _ _ _ hs' =>
    rw [hs'] at hl
    exact h.2 p hp hl
  | table hg =>
    rw [hg] at hl
    exact h.2 p hp hl

/-- The first replica is killed; it campaigns in vain, and the second is elected. -/
theorem minority_leaderless_killed :
    ∃ s, Run (step .inproc ReplicaGroup.threeReplicas)
        (cutOff .inproc ReplicaGroup.threeReplicas {"A"})
        { init with faults := Faults.new.kill "A" }
        ([.replica (.campaign "A"), .replica (.conclude 0 false 1)] ++ election "B" ["C"] 1) s ∧
      (s.group.nodes "B").role = .leader ∧ (s.group.nodes "A").role ≠ .leader := by
  let cfg := ReplicaGroup.threeReplicas
  have hrun₀ : Run (step .inproc cfg) always init [.kill "A"]
      { init with faults := Faults.new.kill "A" } := .cons rfl rfl (.nil _)
  obtain ⟨s, hrun, hB⟩ := Run.exists_of_exec_map (step .inproc cfg) (cutOff .inproc cfg {"A"})
    { init with faults := Faults.new.kill "A" }
    ([.replica (.campaign "A"), .replica (.conclude 0 false 1)] ++ election "B" ["C"] 1)
    (fun s => (s.group.nodes "B").role) .leader (by decide +kernel)
  refine ⟨s, hrun, hB, minority_leaderless (by decide) hrun₀ hrun ?_ ?_ "A" (by decide)⟩
  · intro rid r next first hr
    cases hr
  · intro p _
    simp [init, ReplicaGroup.init, Paxos.Node.fresh]

end

end FaultyGroup

end PaxosPayments.ControlPlane
