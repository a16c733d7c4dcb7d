import PaxosPayments.Paxos.Conditions
import PaxosPayments.Paxos.Rounds

/-!
# Promises and votes of one replica

`Node.Grows n n'` says what the local code does not do: it lowers no promise, takes back no vote and
no commitment, casts no vote below the promise, and makes no replica a leader. All of `Handle`,
`stepDown`, `catchUp` and the apply loop respect it (`Node.Grows.handle` and its companions). The
promises of a campaign, the vote of a leader and the won election are not covered.

The first safety rule of the package is that a replica never votes below the highest ballot it has
promised, the leader's own vote included. It is `Node.Respects`, a property of one replica and its
history. `handleAccept` checks the promise; the leader's vote in `replicate` checks only its role.
And `handleAccept` writes the promise before the entry, so a leader whose disk fails between the two
has promised a ballot above its own without stepping down. The rule holds in the runs in which an
election is won while the replica's promise is still the ballot of the election, campaigns neither
lower the promise nor raise it under a leader, and a leader that stores the promise of an accept
message also stores its entry (`vote_not_below_promise`). It fails without: `vote_below_promise` is
a run of three replicas.
-/

namespace PaxosPayments.Paxos

namespace Node

variable {n n' n'' : Node} {id : NodeID} {b : Ballot} {e : Entry} {msg : Message} {disk : ℕ}

/-! ## What the local code keeps -/

/-- The promise is not lowered, and a leader was one already, with the same ballot and next slot. -/
structure Keeps (n n' : Node) : Prop where
  promised : n.log.promised ≤ n'.log.promised
  leader : n'.role = .leader → n.role = .leader ∧ n'.ballot = n.ballot ∧ n'.nextSlot = n.nextSlot

theorem Keeps.refl (n : Node) : Keeps n n := ⟨le_rfl, fun hl => ⟨hl, rfl, rfl⟩⟩

/-- A leader's vote, which is cast under whatever ballot the leader has. -/
theorem Keeps.vote (n : Node) (e : Entry) : Keeps n (n.vote e) :=
  ⟨le_rfl, fun hl => ⟨hl, rfl, rfl⟩⟩

/-- Moreover no vote and no commitment is taken back, and a new vote is not below the promise. -/
structure Grows (n n' : Node) : Prop extends Keeps n n' where
  voted : ∀ e, .voted e ∈ n.history → .voted e ∈ n'.history
  fresh : ∀ e, .voted e ∈ n'.history → .voted e ∈ n.history ∨ n.log.promised ≤ e.ballot
  committed : ∀ s, n.committed s = true → n'.committed s = true

namespace Grows

/-- A change that touches neither the promise nor the history. -/
theorem quiet (hp : n'.log.promised = n.log.promised) (hh : n'.history = n.history)
    (hc : ∀ s, n.committed s = true → n'.committed s = true)
    (hl : n'.role = .leader → n.role = .leader ∧ n'.ballot = n.ballot ∧ n'.nextSlot = n.nextSlot) :
    Grows n n' :=
  ⟨⟨hp.ge, hl⟩, fun _ he => hh ▸ he, fun _ he => Or.inl (hh ▸ he), hc⟩

theorem refl (n : Node) : Grows n n := quiet rfl rfl (fun _ => id) fun h => ⟨h, rfl, rfl⟩

theorem trans (h : Grows n n') (h' : Grows n' n'') : Grows n n'' := by
  refine ⟨⟨h.promised.trans h'.promised, fun hl => ?_⟩, fun e he => h'.voted e (h.voted e he),
    fun e he => ?_, fun s hs => h'.committed s (h.committed s hs)⟩
  · obtain ⟨h₁, h₂, h₃⟩ := h'.leader hl
    obtain ⟨h₄, h₅, h₆⟩ := h.leader h₁
    exact ⟨h₄, h₂.trans h₅, h₃.trans h₆⟩
  · rcases h'.fresh e he with hold | hge
    · exact h.fresh e hold
    · exact Or.inr (h.promised.trans hge)

/-- The replica becomes, or remains, a follower. -/
theorem follower (n : Node) (leader : NodeID) (catchingUp : Bool) :
    Grows n { n with role := .follower, leader := leader, catchingUp := catchingUp } :=
  quiet rfl rfl (fun _ => id) (by simp)

theorem promise (h : n.log.promised ≤ b) : Grows n (n.promise b) :=
  ⟨⟨h, fun hl => ⟨hl, rfl, rfl⟩⟩, fun _ he => List.mem_cons_of_mem _ he,
    fun e he => Or.inl (by simpa using he), fun _ => id⟩

theorem vote (h : n.log.promised ≤ e.ballot) : Grows n (n.vote e) := by
  refine ⟨⟨le_rfl, fun hl => ⟨hl, rfl, rfl⟩⟩, fun _ he => List.mem_cons_of_mem _ he,
    fun e' he' => ?_, fun _ => id⟩
  rcases List.mem_cons.mp he' with heq | hold
  · obtain rfl := Event.voted.inj heq
    exact Or.inr h
  · exact Or.inl hold

theorem adopt (n : Node) (e : Entry) : Grows n (n.adopt e) :=
  ⟨⟨le_rfl, fun hl => ⟨hl, rfl, rfl⟩⟩, fun _ he => List.mem_cons_of_mem _ he,
    fun e he => Or.inl (by simpa using he), fun _ => id⟩

theorem stepDown (n : Node) (b : Ballot) (disk : ℕ) : Grows n (n.stepDown b disk) := by
  have hf := follower n n.leader n.catchingUp
  unfold Node.stepDown
  dsimp only
  split_ifs with h
  · simp only [Bool.and_eq_true, Ballot.less_iff] at h
    exact hf.trans (promise h.1.2.le)
  · exact hf

theorem stepsDown (h : n.StepsDown n') : Grows n n' := by
  rcases h with rfl | ⟨b, disk, rfl⟩
  · exact refl _
  · exact stepDown n b disk

theorem markCommitted (n : Node) (slots : List ℕ) : Grows n (n.markCommitted slots) :=
  quiet rfl rfl (fun s hs => by simp [Node.markCommitted, hs]) fun hl => ⟨hl, rfl, rfl⟩

theorem catchUpLoop (entries : List Entry) (fuel slot disk : ℕ) (n : Node) :
    Grows n (Node.catchUpLoop entries fuel slot disk n).2 := by
  induction fuel generalizing slot disk n with
  | zero => exact refl n
  | succ fuel ih =>
    unfold Node.catchUpLoop
    split
    · exact refl n
    · dsimp only
      split_ifs
      · exact ih _ _ _
      · exact refl n
      · exact (adopt n _).trans (ih _ _ _)

theorem concludeCatchUp (n : Node) (first commitIndex : ℕ) (reply : Option Message) (disk : ℕ) :
    Grows n (n.concludeCatchUp first commitIndex reply disk) := by
  have hdone : ∀ m : Node, Grows m { m with catchingUp := false } := fun m =>
    quiet rfl rfl (fun _ => id) fun hl => ⟨hl, rfl, rfl⟩
  unfold Node.concludeCatchUp
  cases reply with
  | none => exact hdone n
  | some r =>
    dsimp only
    split_ifs
    · exact hdone n
    · exact ((catchUpLoop _ _ _ _ n).trans (markCommitted _ _)).trans (hdone _)

theorem applyNext (h : n.applyNext = some n') : Grows n n' := by
  unfold Node.applyNext at h
  dsimp only at h
  split_ifs at h
  split at h
  · simp at h
  · obtain rfl := Option.some.inj h
    exact ⟨⟨le_rfl, fun hl => ⟨hl, rfl, rfl⟩⟩, fun _ he => List.mem_cons_of_mem _ he,
      fun e he => Or.inl (by simpa using he), fun _ => id⟩

theorem handlePrepare (id : NodeID) (n : Node) (msg : Message) (disk : ℕ) :
    Grows n (n.handlePrepare id msg disk).1 := by
  unfold Node.handlePrepare
  dsimp only
  split_ifs with h
  · exact refl n
  · exact refl n
  · rw [Bool.not_eq_true, Ballot.less_eq_false_iff] at h
    exact (promise h).trans (follower _ msg.sender n.catchingUp)

theorem handleAccept (id : NodeID) (n : Node) (msg : Message) (disk : ℕ) :
    Grows n (n.handleAccept id msg disk).1 := by
  unfold Node.handleAccept
  dsimp only
  split_ifs with h₁ h₂
  · exact refl n
  · exact refl n
  · exact promise (by simpa using h₁)
  · rw [Ballot.less_iff] at h₂
    exact ((promise h₂.le).trans (vote le_rfl)).trans (follower _ msg.sender n.catchingUp)
  · exact refl n
  · rw [Bool.not_eq_true, Ballot.less_eq_false_iff] at h₁
    exact (vote h₁).trans (follower _ msg.sender n.catchingUp)

/-- **`Handle` takes nothing back**, and makes no leader. -/
theorem handle (id : NodeID) (n : Node) (msg : Message) (disk : ℕ) :
    Grows n (n.handle id msg disk).1 := by
  unfold Node.handle
  cases msg.kind with
  | prepare => exact handlePrepare id n msg disk
  | accept => exact handleAccept id n msg disk
  | commit =>
    simp only [handleCommit]
    split_ifs <;> first
      | exact refl n
      | exact follower n msg.sender _
  | _ => exact refl n

end Grows

/-! ## Votes and promises -/

/-- In a history (newest event first), no vote is below a promise made before it. -/
def VotesAbove (history : List Event) : Prop :=
  ∀ post e pre, history = post ++ .voted e :: pre → ∀ b, .promised b ∈ pre → b ≤ e.ballot

theorem VotesAbove.cons {ev : Event} {history : List Event} (h : VotesAbove history)
    (hev : ∀ e, ev = .voted e → ∀ b, .promised b ∈ history → b ≤ e.ballot) :
    VotesAbove (ev :: history) := by
  intro post e pre heq b hb
  cases post with
  | nil =>
    simp only [List.nil_append, List.cons.injEq] at heq
    exact hev e heq.1 b (heq.2 ▸ hb)
  | cons ev' post =>
    simp only [List.cons_append, List.cons.injEq] at heq
    exact h post e pre heq.2 b hb

/-- The first safety rule at one replica: the promise is the highest ballot promised so far, no vote
was below it, and a leader leads under it. -/
structure Respects (n : Node) : Prop where
  le : ∀ {b}, .promised b ∈ n.history → b ≤ n.log.promised
  votes : VotesAbove n.history
  leader : n.role = .leader → n.ballot = n.log.promised

namespace Respects

theorem fresh : Respects Node.fresh where
  le := by simp [Node.fresh]
  votes := by simp [VotesAbove, Node.fresh]
  leader := by simp [Node.fresh]

/-- A change that touches neither the promise nor the history. -/
theorem quiet (h : Respects n) (hp : n'.log.promised = n.log.promised)
    (hh : n'.history = n.history)
    (hl : n'.role = .leader → n.role = .leader ∧ n'.ballot = n.ballot) : Respects n' where
  le hb := by
    rw [hh] at hb
    exact hp ▸ h.le hb
  votes := hh ▸ h.votes
  leader hr := by
    obtain ⟨hr', hb⟩ := hl hr
    rw [hb, hp, h.leader hr']

theorem promise (h : Respects n) (hb : n.log.promised ≤ b) (hr : n.role ≠ .leader) :
    Respects (n.promise b) where
  le {c} hc := by
    simp only [promise_history, List.mem_cons, Event.promised.injEq] at hc
    rcases hc with rfl | hc
    · exact le_rfl
    · exact (h.le hc).trans hb
  votes := h.votes.cons (by simp)
  leader hr' := absurd hr' hr

theorem vote (h : Respects n) (he : n.log.promised ≤ e.ballot) : Respects (n.vote e) where
  le {c} hc := by
    simp only [vote_history, List.mem_cons, reduceCtorEq, false_or] at hc
    exact h.le hc
  votes := by
    refine h.votes.cons fun e' he' b hb => ?_
    obtain rfl := Event.voted.inj he'
    exact (h.le hb).trans he
  leader := h.leader

theorem adopt (h : Respects n) (e : Entry) : Respects (n.adopt e) where
  le {c} hc := by
    simp only [adopt_history, List.mem_cons, reduceCtorEq, false_or] at hc
    exact h.le hc
  votes := h.votes.cons (by simp)
  leader := h.leader

theorem stepDown (h : Respects n) (b : Ballot) (disk : ℕ) : Respects (n.stepDown b disk) := by
  have h' : Respects { n with role := .follower } := h.quiet rfl rfl (by simp)
  unfold Node.stepDown
  dsimp only
  split_ifs with hc
  · simp only [Bool.and_eq_true, Ballot.less_iff] at hc
    exact h'.promise hc.1.2.le (by simp)
  · exact h'

theorem stepsDown (h : Respects n) (hn : n.StepsDown n') : Respects n' := by
  rcases hn with rfl | ⟨b, disk, rfl⟩
  · exact h
  · exact h.stepDown b disk

theorem catchUpLoop (h : Respects n) (entries : List Entry) (fuel slot disk : ℕ) :
    Respects (Node.catchUpLoop entries fuel slot disk n).2 := by
  induction fuel generalizing slot disk n with
  | zero => exact h
  | succ fuel ih =>
    unfold Node.catchUpLoop
    split
    · exact h
    · dsimp only
      split_ifs
      · exact ih h _ _
      · exact h
      · exact ih (h.adopt _) _ _

theorem concludeCatchUp (h : Respects n) (first commitIndex : ℕ) (reply : Option Message)
    (disk : ℕ) : Respects (n.concludeCatchUp first commitIndex reply disk) := by
  unfold Node.concludeCatchUp
  cases reply with
  | none => exact h.quiet rfl rfl (fun hl => ⟨hl, rfl⟩)
  | some r =>
    dsimp only
    split_ifs
    · exact h.quiet rfl rfl (fun hl => ⟨hl, rfl⟩)
    · exact (h.catchUpLoop _ _ _ _).quiet rfl rfl (fun hl => ⟨hl, rfl⟩)

theorem applyNext (h : Respects n) (hs : n.applyNext = some n') : Respects n' := by
  unfold Node.applyNext at hs
  dsimp only at hs
  split_ifs at hs
  split at hs
  · simp at hs
  · obtain rfl := Option.some.inj hs
    refine ⟨fun {c} hc => ?_, h.votes.cons (by simp), h.leader⟩
    simp only [List.mem_cons, reduceCtorEq, false_or] at hc
    exact h.le hc

/-- **No message makes a replica vote below its promise**, and only an ACCEPT of which the second
write fails leaves it leading under a lower ballot. -/
theorem handle (h : Respects n) (id : NodeID) (msg : Message) (disk : ℕ)
    (hdisk : msg.kind = .accept → n.role = .leader → disk ≠ 1) :
    Respects (n.handle id msg disk).1 := by
  have hf : Respects { n with role := .follower, leader := msg.sender } :=
    h.quiet rfl rfl (by simp)
  unfold Node.handle
  cases hk : msg.kind with
  | prepare =>
    simp only [handlePrepare]
    split_ifs with h₁
    · exact h
    · exact h
    · exact hf.promise (b := msg.ballot) (by simpa using h₁) (by simp)
  | accept =>
    simp only [handleAccept]
    split_ifs with h₁ h₂ h₃ h₄ h₅
    · exact h
    · exact h
    · rw [Ballot.less_iff] at h₂
      exact h.promise h₂.le fun hr => hdisk hk hr h₄
    · rw [Ballot.less_iff] at h₂
      exact (hf.promise h₂.le (by simp)).vote le_rfl
    · exact h
    · exact hf.vote (by simpa using h₁)
  | commit =>
    simp only [handleCommit]
    split_ifs <;> first
      | exact h
      | exact h.quiet rfl rfl (by simp)
  | _ => exact h

end Respects

end Node

/-! ## Runs of a group -/

namespace ReplicaGroup

variable {cfg : Config} {g g' : ReplicaGroup}

theorem forall_setNode {P : Node → Prop} (h : ∀ a, P (g.nodes a)) (id : NodeID) {n : Node}
    (hn : P n) (a : NodeID) : P ((g.setNode id n).nodes a) := by
  simp only [setNode, Function.update_apply]
  split_ifs
  · exact hn
  · exact h a

/-- The steps under which the first safety rule holds. -/
def guardedPromises (cfg : Config) (g : ReplicaGroup) (a : Action) : Bool :=
  g.freshBallot a && g.notLeading a && g.adoptionKept cfg a && g.stillPromised cfg a &&
    g.acceptStored a

theorem respects_answer (h : ∀ a, (g.nodes a).Respects) {rid disk : ℕ} {p : NodeID} {r : Round}
    (hr : g.rounds rid = some r) (hok : g.acceptStored (.deliver rid p disk) = true) :
    ∀ a, ((g.setNode p
      ((g.nodes p).handle p (r.task.request r.owner) disk).1).nodes a).Respects := by
  have hdisk : (r.task.request r.owner).kind = .accept → (g.nodes p).role = .leader →
      disk ≠ 1 := by
    obtain ⟨owner, task, rpc, replies, concluded⟩ := r
    cases task with
    | accept entry j =>
      intro _ hl
      simpa [acceptStored, hr, hl] using hok
    | _ => simp [Task.request]
  exact forall_setNode h p ((h p).handle p _ disk hdisk)

/-- **Every step keeps the first safety rule**, when it meets the conditions. -/
theorem respects_step (h : ∀ a, (g.nodes a).Respects) {act : Action}
    (hok : g.guardedPromises cfg act = true) (ho : Outcome cfg g act g') :
    ∀ a, (g'.nodes a).Respects := by
  simp only [guardedPromises, Bool.and_eq_true] at hok
  obtain ⟨⟨⟨⟨hfresh, hlead⟩, hkept⟩, hstill⟩, hstored⟩ := hok
  cases ho with
  | @campaign id => exact forall_setNode h id ((h id).quiet rfl rfl (by simp))
  | @prepare cid disk c hc =>
    exact forall_setNode h c.owner ((h c.owner).promise (lt_of_freshBallot hfresh hc).le
      (not_leader_of_notLeading hlead hc))
  | noPrepare _ hn => exact forall_setNode h _ ((h _).stepsDown hn)
  | @propose id => exact forall_setNode h id ((h id).quiet rfl rfl fun hl => ⟨hl, rfl⟩)
  | @replicate jid disk j _ hl =>
    exact forall_setNode h j.owner ((h j.owner).vote ((h j.owner).leader hl).ge)
  | noReplicate _ hn => exact forall_setNode h _ ((h _).stepsDown hn)
  | heartbeat => exact h
  | apply hn => exact forall_setNode h _ ((h _).applyNext hn)
  | answer hr => exact respects_answer h hr hstored
  | fetch hr => exact respects_answer h hr hstored
  | collect => exact h
  | stop _ hn => exact forall_setNode h _ ((h _).stepsDown hn)
  | choose => exact h
  | @lose rid disk first expired r next hr ht hq hlt =>
    have hle := le_of_adoptionKept hkept hr ht hq hlt
    exact forall_setNode h r.owner
      (((h r.owner).quiet rfl rfl (by simp) :
        Node.Respects { g.nodes r.owner with role := .follower }).promise hle (by simp))
  | @win rid disk first expired r next hr ht hq =>
    have heq := eq_of_stillPromised hstill hr ht hq
    rw [winCampaign_nodes]
    exact forall_setNode h r.owner ⟨(h _).le, (h _).votes, fun _ => heq.symm⟩
  | @commit rid disk expired r entry j =>
    rw [continueJob_nodes]
    exact forall_setNode h j.owner ((h j.owner).quiet rfl rfl fun hl => ⟨hl, rfl⟩)
  | learn => exact forall_setNode h _ ((h _).concludeCatchUp _ _ _ _)

/-- **No replica votes below its promise**, the leader's own votes included: in the history of a
replica, newest event first, every vote is at least every promise made before it. -/
theorem vote_not_below_promise {acts : List Action}
    (hrun : Run (step cfg) (guardedPromises cfg) init acts g) (a : NodeID)
    (post : List Event) {pre : List Event} {e : Entry}
    (hh : (g.nodes a).history = post ++ .voted e :: pre)
    {b : Ballot} (hb : .promised b ∈ pre) : b ≤ e.ballot := by
  have hr := hrun.invariant (I := fun g => ∀ a, (g.nodes a).Respects)
    (fun _ _ _ h hok hs => respects_step h hok (.of_step hs)) (fun _ => Node.Respects.fresh)
  exact (hr a).votes post e pre hh b hb

/-- A group of three replicas. -/
def threeReplicas : Config := ⟨["A", "B", "C"], by decide⟩

/-- The request of a round is handled by each of `ps`, and the reply collected. -/
def exchange (rid : ℕ) (ps : List NodeID) (disk : ℕ) : List Action :=
  ps.flatMap fun p => [.deliver rid p disk, .collect rid p]

/-- An election of `id` with the promises of `ps`; `rid` will be the number of its first round. -/
def election (id : NodeID) (ps : List NodeID) (rid : ℕ) : List Action :=
  [.campaign id] ++ exchange rid ps 1 ++ [.conclude rid false 1, .prepare (rid + 1) 1] ++
    exchange (rid + 2) ps 1 ++ [.conclude (rid + 2) false 1]

/-- A proposal of `id` that is accepted by `ps`; `jid` will be its number. -/
def proposal (id : NodeID) (ps : List NodeID) (jid : ℕ) (command : Command) : List Action :=
  [.propose id command, .replicate jid 1] ++ exchange (jid + 1) ps 2 ++
    [.conclude (jid + 1) false 1]

theorem vote_not_below_promise_three :
    ∃ g, Run (step threeReplicas) (guardedPromises threeReplicas) init
        (election "A" ["B"] 0 ++ proposal "A" ["B"] 3 [120]) g ∧
      (g.nodes "B").history = [.voted ⟨1, ⟨1, "A"⟩, [120]⟩, .promised ⟨1, "A"⟩] ∧
      (⟨1, "A"⟩ : Ballot) ≤ ⟨1, "A"⟩ := by
  obtain ⟨g, hrun, hh⟩ := Run.exists_of_exec_map (step threeReplicas)
    (guardedPromises threeReplicas) init (election "A" ["B"] 0 ++ proposal "A" ["B"] 3 [120])
    (fun g => (g.nodes "B").history) [.voted ⟨1, ⟨1, "A"⟩, [120]⟩, .promised ⟨1, "A"⟩]
    (by decide +kernel)
  exact ⟨g, hrun, hh, vote_not_below_promise hrun "B" [] hh (by simp)⟩

/-- The campaigns of `A` and `B` overlap: `A` is promised by `B`, and promises `B`'s higher ballot
before it counts the promise. `B` wins, and then `A`. -/
def overlappingElections : List Action :=
  [.campaign "A", .deliver 0 "B" 1, .collect 0 "B", .conclude 0 false 1, .prepare 1 1,
    .deliver 2 "B" 1, .collect 2 "B"] ++
  election "B" ["A"] 3 ++ [.conclude 2 false 1]

/-- The vote of a leader below its own promise: `A` has promised `2.B` when it votes under `1.A`. -/
theorem vote_below_promise :
    ∃ g, Run (step threeReplicas) always init
        (overlappingElections ++ [.propose "A" [120], .replicate 6 1]) g ∧
      (g.nodes "A").history =
        [.voted ⟨1, ⟨1, "A"⟩, [120]⟩, .promised ⟨2, "B"⟩, .promised ⟨1, "A"⟩] ∧
      (⟨1, "A"⟩ : Ballot) < ⟨2, "B"⟩ := by
  obtain ⟨g, hrun, hh⟩ := Run.exists_of_exec_map (step threeReplicas) always init
    (overlappingElections ++ [.propose "A" [120], .replicate 6 1])
    (fun g => (g.nodes "A").history)
    [.voted ⟨1, ⟨1, "A"⟩, [120]⟩, .promised ⟨2, "B"⟩, .promised ⟨1, "A"⟩] (by decide +kernel)
  exact ⟨g, hrun, hh, by decide⟩

end ReplicaGroup

end PaxosPayments.Paxos
