import PaxosPayments.Paxos.Agreement

/-!
# Majorities behind leaders and commits

No replica becomes leader and no slot is committed by its leader without a majority: when a campaign
calls `becomeLeader`, a majority of the replicas have had its ballot as their promise, and when
`replicate` marks a slot committed, a majority have had its entry in their logs. Nothing is assumed
of the run: the argument is only that each positive reply that is counted was preceded by a write of
its sender, and that nobody is counted twice (`Round.voters`).

`Counted` ties the replies of every round to the histories of their senders, and `Node.Records` ties
the histories to the logs, so that the result (`majority_behind`) is about the states of the run and
not about the histories. An election and a commit are read off the states before and after a step
(`Elected`, `Marked`); that the votes were counted is proved (`Elected.round`, `Marked.votes`).
-/

namespace PaxosPayments.Paxos

/-- At least half of the peers and one more. -/
def Config.IsMajority (cfg : Config) (Q : Finset NodeID) : Prop :=
  Q ⊆ cfg.peers.toFinset ∧ majority cfg.peers.length ≤ Q.card

theorem Config.isMajority_iff {cfg : Config} {Q : Finset NodeID} :
    cfg.IsMajority Q ↔ cfg.quorums.IsQuorum Q := by
  rw [IsMajority, majority_le_iff, ← List.toFinset_card_of_nodup cfg.nodup]
  rfl

/-! ## Histories and logs -/

namespace Node

variable {n n' : Node} {id : NodeID} {msg : Message} {disk : ℕ}

/-- The history goes on, and a promise or a vote that is new in it is in the log. -/
structure Records (n n' : Node) : Prop where
  kept : n.history ⊆ n'.history
  promised : ∀ b, .promised b ∈ n'.history → .promised b ∈ n.history ∨ n'.log.promised = b
  voted : ∀ e, .voted e ∈ n'.history →
    .voted e ∈ n.history ∨ n'.log.entries e.slot = some e

namespace Records

/-- A change that adds neither a promise nor a vote. -/
theorem quiet (hkept : n.history ⊆ n'.history)
    (hpromised : ∀ b, .promised b ∈ n'.history → .promised b ∈ n.history)
    (hvoted : ∀ e, .voted e ∈ n'.history → .voted e ∈ n.history) : Records n n' :=
  ⟨hkept, fun b hb => Or.inl (hpromised b hb), fun e he => Or.inl (hvoted e he)⟩

theorem of_history (h : n'.history = n.history) : Records n n' :=
  .quiet (fun _ he => h ▸ he) (fun _ hb => h ▸ hb) fun _ he => h ▸ he

/-- A promise, whatever becomes of the role. -/
theorem promise {b : Ballot} (hh : n'.history = .promised b :: n.history)
    (hp : n'.log.promised = b) : Records n n' := by
  refine ⟨hh ▸ List.subset_cons_self _ _, fun b' hb' => ?_, fun e he => ?_⟩
  · rw [hh, List.mem_cons, Event.promised.injEq] at hb'
    rcases hb' with rfl | hold
    · exact Or.inr hp
    · exact Or.inl hold
  · rw [hh] at he
    exact Or.inl (by simpa using he)

theorem vote {e : Entry} (hh : n'.history = .voted e :: n.history)
    (he : n'.log.entries e.slot = some e) : Records n n' := by
  refine ⟨hh ▸ List.subset_cons_self _ _, fun b hb => ?_, fun e' he' => ?_⟩
  · rw [hh] at hb
    exact Or.inl (by simpa using hb)
  · rw [hh, List.mem_cons, Event.voted.injEq] at he'
    rcases he' with rfl | hold
    · exact Or.inr he
    · exact Or.inl hold

theorem stepsDown (h : n.StepsDown n') : Records n n' := by
  rcases h with rfl | ⟨b, disk, rfl⟩
  · exact of_history rfl
  · unfold Node.stepDown
    dsimp only
    split_ifs
    · exact promise rfl rfl
    · exact of_history rfl

theorem applyNext (h : n.applyNext = some n') : Records n n' := by
  unfold Node.applyNext at h
  dsimp only at h
  split_ifs at h
  split at h
  · simp at h
  · obtain rfl := Option.some.inj h
    exact .quiet (List.subset_cons_self _ _) (by simp) (by simp)

/-- The entries that are adopted are neither promises nor votes. -/
theorem catchUpLoop (entries : List Entry) (fuel slot disk : ℕ) (n : Node) :
    n.history ⊆ (Node.catchUpLoop entries fuel slot disk n).2.history ∧
      (∀ b, .promised b ∈ (Node.catchUpLoop entries fuel slot disk n).2.history →
        .promised b ∈ n.history) ∧
      ∀ e, .voted e ∈ (Node.catchUpLoop entries fuel slot disk n).2.history →
        .voted e ∈ n.history := by
  induction fuel generalizing slot disk n with
  | zero => exact ⟨fun _ => id, fun _ => id, fun _ => id⟩
  | succ fuel ih =>
    unfold Node.catchUpLoop
    split
    · exact ⟨fun _ => id, fun _ => id, fun _ => id⟩
    · rename_i e _
      dsimp only
      split_ifs
      · exact ih _ _ _
      · exact ⟨fun _ => id, fun _ => id, fun _ => id⟩
      · obtain ⟨hkept, hpromised, hvoted⟩ := ih (slot + 1) (disk - 1) (n.adopt e)
        refine ⟨fun ev hev => hkept (List.mem_cons_of_mem _ hev), fun b hb => ?_,
          fun e' he' => ?_⟩
        · simpa using hpromised b hb
        · simpa using hvoted e' he'

theorem concludeCatchUp (n : Node) (first commitIndex : ℕ) (reply : Option Message) (disk : ℕ) :
    Records n (n.concludeCatchUp first commitIndex reply disk) := by
  unfold Node.concludeCatchUp
  cases reply with
  | none => exact of_history rfl
  | some r =>
    dsimp only
    split_ifs
    · exact of_history rfl
    · obtain ⟨hkept, hpromised, hvoted⟩ :=
        catchUpLoop r.entries (commitIndex + 1 - first) first disk n
      exact .quiet hkept hpromised hvoted

/-- In `handleAccept` the promise comes first, and the vote leaves it. -/
theorem handleAccept (id : NodeID) (n : Node) (msg : Message) (disk : ℕ) :
    Records n (n.handleAccept id msg disk).1 := by
  unfold Node.handleAccept
  dsimp only
  split_ifs
  · exact of_history rfl
  · exact of_history rfl
  · exact promise rfl rfl
  · have hp : Records n (n.promise msg.ballot) := promise rfl rfl
    refine ⟨fun ev hev => by simp [hev], fun b hb => ?_, fun e he => ?_⟩
    · exact hp.promised b (by simpa using hb)
    · rcases List.mem_cons.mp he with heq | hold
      · obtain rfl := Event.voted.inj heq
        exact Or.inr (Log.accept_entries_self _ _)
      · exact Or.inl (by simpa using hold)
  · exact of_history rfl
  · exact vote rfl (Log.accept_entries_self _ _)

theorem handle (id : NodeID) (n : Node) (msg : Message) (disk : ℕ) :
    Records n (n.handle id msg disk).1 := by
  unfold Node.handle
  cases msg.kind with
  | prepare =>
    simp only [handlePrepare]
    split_ifs
    · exact of_history rfl
    · exact of_history rfl
    · exact promise rfl rfl
  | accept => exact handleAccept id n msg disk
  | commit =>
    simp only [handleCommit]
    split_ifs <;> exact of_history rfl
  | _ => exact of_history rfl

end Records

end Node

open ReplicaGroup

/-! ## Replies and histories -/

section Counted

variable (history : NodeID → List Event)

/-- What `p` has done when it is counted for a task. -/
def Task.Counts (p : NodeID) : Task → Prop
  | .prepare next _ => .promised next ∈ history p
  | .accept entry _ => .voted entry ∈ history p
  | _ => True

/-- Those who are counted in the round have done what they are counted for. -/
structure Round.Counted (r : Round) : Prop where
  owner : r.task.Counts history r.owner
  reply : ∀ m, r.Replied m → m.ok = true → r.task.Counts history m.sender

end Counted

section

variable {history history' : NodeID → List Event} {r : Round} {p : NodeID} {task : Task}
  {reply : Message}

theorem Task.Counts.mono (hsub : ∀ p, history p ⊆ history' p) (h : task.Counts history p) :
    task.Counts history' p := by
  cases task with
  | prepare | accept => exact hsub p h
  | probe | heartbeat | catchUp => trivial

theorem Round.Counted.mono (hsub : ∀ p, history p ⊆ history' p) (h : r.Counted history) :
    r.Counted history' :=
  ⟨h.owner.mono hsub, fun m hm hok => (h.reply m hm hok).mono hsub⟩

theorem Round.Counted.answer (h : r.Counted history)
    (hreply : reply.ok = true → r.task.Counts history reply.sender) :
    (r.answer p reply).Counted history := by
  refine ⟨h.owner, fun m hrep hok => ?_⟩
  rcases hrep with ⟨q, hq⟩ | hold
  · simp only [Round.answer, Function.update_apply] at hq
    split_ifs at hq
    · obtain rfl := Rpc.answered.inj hq
      exact hreply hok
    · exact h.reply m (Or.inl ⟨q, hq⟩) hok
  · exact h.reply m (Or.inr hold) hok

theorem Round.Counted.collect (h : r.Counted history) (hrpc : r.rpc p = .answered reply) :
    (r.collect p reply).Counted history := by
  refine ⟨h.owner, fun m hrep hok => ?_⟩
  rcases hrep with ⟨q, hq⟩ | hmem
  · simp only [Round.collect, Function.update_apply] at hq
    split_ifs at hq
    exact h.reply m (Or.inl ⟨q, hq⟩) hok
  · simp only [Round.collect, List.mem_append, List.mem_singleton] at hmem
    rcases hmem with hmem | rfl
    · exact h.reply m (Or.inr hmem) hok
    · exact h.reply m (Or.inl ⟨p, hrpc⟩) hok

/-- **Everybody who is counted has done it.** -/
theorem Round.Counted.voters (h : r.Counted history) {a : NodeID} (ha : a ∈ r.voters) :
    r.task.Counts history a := by
  rcases Round.mem_voters.mp ha with rfl | ⟨m, hm, hok, rfl⟩
  · exact h.owner
  · exact h.reply m (Or.inr hm) hok

/-- A positive reply to a request was preceded by the promise or the vote. -/
theorem Node.handle_counts {n : Node} {owner : NodeID} {disk : ℕ}
    (hn : history p = (n.handle p (task.request owner) disk).1.history)
    (hok : (n.handle p (task.request owner) disk).2.1.ok = true) : task.Counts history p := by
  cases task with
  | prepare next first =>
    have hh := (handlePrepare_ok hok).2.1
    change .promised next ∈ history p
    rw [hn]
    exact hh ▸ List.mem_cons_self
  | accept entry j =>
    change .voted entry ∈ history p
    rw [hn]
    exact handleAccept_ok hok
  | probe | heartbeat | catchUp => trivial

end

namespace ReplicaGroup

variable {cfg : Config} {g g' : ReplicaGroup}

def history (g : ReplicaGroup) (p : NodeID) : List Event := (g.nodes p).history

/-- Every step records what it promises and votes for. -/
theorem Outcome.records {act : Action} (ho : Outcome cfg g act g') (p : NodeID) :
    (g.nodes p).Records (g'.nodes p) := by
  have hset : ∀ {id : NodeID} {n : Node}, g'.nodes = Function.update g.nodes id n →
      (g.nodes id).Records n → (g.nodes p).Records (g'.nodes p) := by
    intro id n hnodes hn
    rw [hnodes, Function.update_apply]
    split_ifs with hp
    · exact hp ▸ hn
    · exact .of_history rfl
  cases ho with
  | campaign => exact hset rfl (.of_history rfl)
  | prepare => exact hset rfl (.promise rfl rfl)
  | noPrepare _ hn => exact hset rfl (.stepsDown hn)
  | propose => exact hset rfl (.of_history rfl)
  | replicate => exact hset rfl (.vote rfl (Log.accept_entries_self _ _))
  | noReplicate _ hn => exact hset rfl (.stepsDown hn)
  | heartbeat => exact .of_history rfl
  | apply hn => exact hset rfl (.applyNext hn)
  | answer => exact hset rfl (.handle _ _ _ _)
  | fetch => exact hset rfl (.handle _ _ _ _)
  | collect => exact .of_history rfl
  | stop _ hn => exact hset rfl (.stepsDown hn)
  | choose => exact .of_history rfl
  | lose => exact hset rfl (.promise rfl rfl)
  | win => exact hset (winCampaign_nodes ..) (.of_history rfl)
  | commit => exact hset (continueJob_nodes ..) (.of_history rfl)
  | learn => exact hset rfl (.concludeCatchUp _ _ _ _ _)

/-- The invariant: the replies of all rounds are tied to what their senders have done. -/
def Counted (g : ReplicaGroup) : Prop :=
  ∀ rid r, g.rounds rid = some r → r.Counted g.history

namespace Counted

/-- The rounds of a step: those that are there already, one that goes on, and one that is new. -/
theorem setRound (h : g.Counted) {rid : ℕ} {r : Round} {history : NodeID → List Event}
    (hsub : ∀ p, g.history p ⊆ history p) (hr : r.Counted history) :
    ∀ rid' r', (g.setRound rid r).rounds rid' = some r' → r'.Counted history := by
  intro rid' r' hr'
  rcases setRound_eq_some hr' with ⟨rfl, rfl⟩ | ⟨-, hold⟩
  · exact hr
  · exact (h rid' r' hold).mono hsub

theorem opened {history : NodeID → List Event} {owner : NodeID} {targets : List NodeID}
    {task : Task} (ht : task.Counts history owner) :
    (⟨owner, task, fun p => if p ∈ targets then .sent else .idle, [], false⟩ :
      Round).Counted history := by
  refine ⟨ht, fun m hm => ?_⟩
  rcases hm with ⟨p, hp⟩ | hm
  · dsimp only at hp
    split_ifs at hp
  · simp at hm

/-- **Every step keeps the invariant.** -/
theorem step (h : g.Counted) {act : Action} (ho : Outcome cfg g act g') : g'.Counted := by
  have hsub : ∀ p, g.history p ⊆ g'.history p := fun p => (ho.records p).kept
  have hkeep : ∀ {rid : ℕ} {r : Round}, g.rounds rid = some r → r.Counted g'.history :=
    fun hr => (h _ _ hr).mono hsub
  have hclose : ∀ {rid : ℕ} {r : Round}, g.pending rid = some r →
      g'.rounds = (g.setRound rid r.close).rounds → g'.Counted := by
    intro rid r hr hrounds rid' r' hr'
    have hr₀ := hkeep (pending_eq_some.mp hr).1
    rw [hrounds] at hr'
    exact h.setRound hsub (r := r.close) ⟨hr₀.owner, hr₀.reply⟩ rid' r' hr'
  cases ho with
  | campaign | heartbeat => exact h.setRound hsub (opened trivial)
  | prepare => exact h.setRound hsub (opened (by simp [Task.Counts, history, ReplicaGroup.setNode]))
  | replicate =>
    exact h.setRound hsub (opened (by simp [Task.Counts, history, ReplicaGroup.setNode, issue]))
  | noPrepare | propose | noReplicate | apply => exact fun rid r hr => hkeep hr
  | answer hr =>
    refine h.setRound hsub ((hkeep hr).answer fun hok => ?_)
    rw [Node.handle_sender]
    exact Node.handle_counts (by simp [history, ReplicaGroup.setNode]) hok
  | @fetch rid disk p r f hr =>
    intro rid' r' hr'
    rcases setRound_eq_some hr' with ⟨rfl, rfl⟩ | ⟨-, hold⟩
    · exact opened trivial
    · refine h.setRound hsub ((hkeep hr).answer fun hok => ?_) rid' r' hold
      rw [Node.handle_sender]
      exact Node.handle_counts (by simp [history, ReplicaGroup.setNode]) hok
  | collect hr hrpc => exact h.setRound hsub ((hkeep (pending_eq_some.mp hr).1).collect hrpc)
  | stop hr | choose hr | lose hr | learn hr => exact hclose hr rfl
  | win hr => exact hclose hr (winCampaign_rounds ..)
  | commit hr => exact hclose hr (continueJob_rounds ..)

end Counted

/-! ## Elections and commits -/

/-- From `g` to `g'` the replica comes to lead under the ballot, as after `becomeLeader`. -/
def Elected (g g' : ReplicaGroup) (id : NodeID) (b : Ballot) : Prop :=
  (g'.nodes id).role = .leader ∧ (g'.nodes id).ballot = b ∧
    ((g.nodes id).role = .leader → (g.nodes id).ballot ≠ b)

/-- From `g` to `g'` the replica marks the slot committed. -/
def Marked (g g' : ReplicaGroup) (id : NodeID) (s : ℕ) : Prop :=
  (g.nodes id).committed s = false ∧ (g'.nodes id).committed s = true

section

variable {a : Action} {id : NodeID} {b : Ballot} {entry : Entry}

/-- The only way to come to lead is to end a campaign of this ballot with the votes of a quorum. -/
theorem Elected.round (h : Elected g g' id b) (hs : g.step cfg a = some g') :
    ∃ rid expired disk r first, a = .conclude rid expired disk ∧ g.pending rid = some r ∧
      r.owner = id ∧ r.task = .prepare b first ∧ cfg.quorum ≤ votes r.replies := by
  obtain ⟨hl, rfl, hnew⟩ := h
  have hset : ∀ {p : NodeID} {n : Node}, g'.nodes = Function.update g.nodes p n →
      (n.role = .leader → (g.nodes p).role = .leader ∧ n.ballot = (g.nodes p).ballot) → False := by
    intro p n hnodes hkeep
    rw [hnodes, Function.update_apply] at hl hnew
    split_ifs at hl hnew with hp
    · subst hp
      obtain ⟨hl', hb⟩ := hkeep hl
      exact hnew hl' hb.symm
    · exact hnew hl rfl
  have hkeeps : ∀ {p : NodeID} {n : Node}, g'.nodes = Function.update g.nodes p n →
      (g.nodes p).Keeps n → False := fun hnodes hn =>
    hset hnodes fun hl => ⟨(hn.leader hl).1, (hn.leader hl).2.1⟩
  have hquiet : g'.nodes ≠ g.nodes := fun hnodes => hnew (hnodes ▸ hl) (by rw [hnodes])
  cases Outcome.of_step hs with
  | campaign => exact (hset rfl (by simp)).elim
  | prepare => exact (hset rfl fun hl => ⟨hl, rfl⟩).elim
  | noPrepare _ hn => exact (hkeeps rfl (Node.Grows.stepsDown hn).toKeeps).elim
  | propose => exact (hset rfl fun hl => ⟨hl, rfl⟩).elim
  | replicate => exact (hset rfl fun hl => ⟨hl, rfl⟩).elim
  | noReplicate _ hn => exact (hkeeps rfl (Node.Grows.stepsDown hn).toKeeps).elim
  | heartbeat => exact absurd rfl hquiet
  | apply hn => exact (hkeeps rfl (Node.Grows.applyNext hn).toKeeps).elim
  | answer => exact (hkeeps rfl (Node.Grows.handle _ _ _ _).toKeeps).elim
  | fetch => exact (hkeeps rfl (Node.Grows.handle _ _ _ _).toKeeps).elim
  | collect => exact absurd rfl hquiet
  | stop _ hn => exact (hkeeps rfl (Node.Grows.stepsDown hn).toKeeps).elim
  | choose => exact absurd rfl hquiet
  | lose => exact (hset rfl (by simp)).elim
  | @win rid disk first expired r next hr ht hq =>
    by_cases hid : id = r.owner
    · subst hid
      refine ⟨rid, expired, disk, r, first, rfl, hr, rfl, ?_, hq⟩
      simp [ht, winCampaign_nodes, ReplicaGroup.setNode, Node.becomeLeader]
    · rw [winCampaign_nodes] at hl hnew
      simp only [ReplicaGroup.setNode, Function.update_of_ne hid] at hl hnew
      exact absurd rfl (hnew hl)
  | commit => exact (hset (continueJob_nodes ..) fun hl => ⟨hl, rfl⟩).elim
  | learn => exact (hkeeps rfl (Node.Grows.concludeCatchUp _ _ _ _ _).toKeeps).elim

/-- What the end of an ACCEPT round marks is the slot of its entry, at the replica that sent it and
with the votes of a quorum. -/
theorem Marked.votes {s rid disk : ℕ} {expired : Bool} {r : Round} {j : Job}
    (h : Marked g g' id s) (hr : g.pending rid = some r) (ht : r.task = .accept entry j)
    (hs : g.step cfg (.conclude rid expired disk) = some g') :
    id = j.owner ∧ s = entry.slot ∧ cfg.quorum ≤ votes r.replies := by
  obtain ⟨hold, hnew⟩ := h
  cases Outcome.of_step hs with
  | stop hr' hn =>
    simp only [ReplicaGroup.setNode, setRound, Function.update_apply] at hnew
    split_ifs at hnew with hid
    · rw [hn.committed, ← hid, hold] at hnew
      cases hnew
    · rw [hold] at hnew
      cases hnew
  | choose hr' ht' | lose hr' ht' | win hr' ht' | learn hr' ht' =>
    obtain rfl := Option.some.inj (hr.symm.trans hr')
    rw [ht] at ht'
    cases ht'
  | commit hr' ht' hq =>
    obtain rfl := Option.some.inj (hr.symm.trans hr')
    obtain ⟨rfl, rfl⟩ := Task.accept.inj (ht.symm.trans ht')
    rw [continueJob_nodes] at hnew
    simp only [ReplicaGroup.setNode, setRound, Function.update_apply] at hnew
    split_ifs at hnew with hid
    · subst hid
      simp only [Node.markCommitted, hold, Bool.false_or, List.contains_iff_mem,
        List.mem_singleton] at hnew
      exact ⟨rfl, hnew, hq⟩
    · rw [hold] at hnew
      cases hnew

end

/-- The rounds of a group and the writes behind them. -/
structure Witnessed (cfg : Config) (g : ReplicaGroup) : Prop where
  form : Form cfg g
  counted : g.Counted

namespace Witnessed

theorem init (cfg : Config) : Witnessed cfg init :=
  ⟨.init cfg, by simp [Counted, ReplicaGroup.init]⟩

theorem step (h : Witnessed cfg g) {a : Action} (hs : g.step cfg a = some g') :
    Witnessed cfg g' :=
  ⟨h.form.step (Outcome.of_step hs), h.counted.step (Outcome.of_step hs)⟩

/-- A round that reached the quorum was answered by a majority. -/
theorem majority (h : Witnessed cfg g) {rid : ℕ} {r : Round} (hr : g.pending rid = some r)
    (hq : cfg.quorum ≤ votes r.replies) :
    ∃ Q, cfg.IsMajority Q ∧ r.owner ∈ Q ∧ ∀ p ∈ Q, r.task.Counts g.history p := by
  have hr' := (pending_eq_some.mp hr).1
  exact ⟨r.voters, Config.isMajority_iff.mpr ((h.form.rounds rid r hr').quorum hq),
    Round.mem_voters.mpr (Or.inl rfl), fun p hp => (h.counted rid r hr').voters hp⟩

theorem elected (h : Witnessed cfg g) {a : Action} {id : NodeID} {b : Ballot}
    (hs : g.step cfg a = some g') (he : Elected g g' id b) :
    ∃ Q, cfg.IsMajority Q ∧ id ∈ Q ∧ ∀ p ∈ Q, .promised b ∈ g.history p := by
  obtain ⟨rid, expired, disk, r, first, -, hr, rfl, ht, hq⟩ := he.round hs
  have hQ := h.majority hr hq
  rw [ht] at hQ
  exact hQ

end Witnessed

/-- At some point of a run of the group, the start and the end included. -/
def Earlier (cfg : Config) (acts : List Action) (P : ReplicaGroup → Prop) : Prop :=
  ∃ acts₁ acts₂ g, acts = acts₁ ++ acts₂ ∧ Run (step cfg) always init acts₁ g ∧ P g

section

variable {acts : List Action}

theorem witnessed (hrun : Run (step cfg) always init acts g) : Witnessed cfg g :=
  hrun.invariant (fun _ _ _ h _ hs => h.step hs) (.init cfg)

/-- In every state, whoever leads has been promised its ballot by a majority. -/
theorem leader_promised (hrun : Run (step cfg) always init acts g) {id : NodeID}
    (hl : (g.nodes id).role = .leader) :
    ∃ Q, cfg.IsMajority Q ∧ id ∈ Q ∧ ∀ p ∈ Q, .promised (g.nodes id).ballot ∈ g.history p := by
  refine (hrun.invariant (I := fun g => Witnessed cfg g ∧ ((g.nodes id).role = .leader →
    ∃ Q, cfg.IsMajority Q ∧ id ∈ Q ∧ ∀ p ∈ Q, .promised (g.nodes id).ballot ∈ g.history p))
    (fun g a g' h _ hs => ⟨h.1.step hs, fun hl' => ?_⟩)
    ⟨.init cfg, by simp [init, Node.fresh]⟩).2 hl
  have hgrow : ∀ p, g.history p ⊆ g'.history p := fun p => ((Outcome.of_step hs).records p).kept
  by_cases hsame : (g.nodes id).role = .leader ∧ (g.nodes id).ballot = (g'.nodes id).ballot
  · obtain ⟨Q, hQ, hid, hall⟩ := h.2 hsame.1
    exact ⟨Q, hQ, hid, fun p hp => hgrow p (hsame.2 ▸ hall p hp)⟩
  · have hnew : (g.nodes id).role = .leader → (g.nodes id).ballot ≠ (g'.nodes id).ballot :=
      fun hl₀ hb => hsame ⟨hl₀, hb⟩
    obtain ⟨Q, hQ, hid, hall⟩ := h.1.elected hs ⟨hl', rfl, hnew⟩
    exact ⟨Q, hQ, hid, fun p hp => hgrow p (hall p hp)⟩

theorem earlier_promised (hrun : Run (step cfg) always init acts g) {p : NodeID} {b : Ballot}
    (h : .promised b ∈ (g.nodes p).history) :
    Earlier cfg acts fun g => (g.nodes p).log.promised = b :=
  hrun.origin (P := fun g => .promised b ∈ (g.nodes p).history)
    (fun _ _ _ _ hs => ((Outcome.of_step hs).records p).promised b)
    (by simp [init, Node.fresh]) h

theorem earlier_stored (hrun : Run (step cfg) always init acts g) {p : NodeID} {e : Entry}
    (h : .voted e ∈ (g.nodes p).history) :
    Earlier cfg acts fun g => (g.nodes p).log.entries e.slot = some e :=
  hrun.origin (P := fun g => .voted e ∈ (g.nodes p).history)
    (fun _ _ _ _ hs => ((Outcome.of_step hs).records p).voted e)
    (by simp [init, Node.fresh]) h

/-- **No leadership and no commit without a majority.** Whoever leads after a step, under whatever
ballot `becomeLeader` was entered with, is one of a majority of replicas that have had this ballot
as their promise before the step. When the end of an ACCEPT round marks a slot committed, it is the
slot of its entry, and the replica is one of a majority that have had this entry in their logs
before the step. Any two majorities have a replica in common. -/
theorem majority_behind (hrun : Run (step cfg) always init acts g) {a : Action}
    (hs : g.step cfg a = some g') :
    (∀ id, (g'.nodes id).role = .leader → ∃ Q, cfg.IsMajority Q ∧ id ∈ Q ∧
      ∀ p ∈ Q, Earlier cfg acts fun g => (g.nodes p).log.promised = (g'.nodes id).ballot) ∧
    (∀ rid expired disk r entry j, a = .conclude rid expired disk → g.pending rid = some r →
      r.task = .accept entry j → ∀ id s, Marked g g' id s → id = r.owner ∧ s = entry.slot ∧
        ∃ Q, cfg.IsMajority Q ∧ id ∈ Q ∧
          ∀ p ∈ Q, Earlier cfg acts fun g => (g.nodes p).log.entries s = some entry) ∧
    ∀ Q Q', cfg.IsMajority Q → cfg.IsMajority Q' → ∃ p, p ∈ Q ∧ p ∈ Q' := by
  have hg := witnessed hrun
  refine ⟨fun id hl => ?_, fun rid expired disk r entry j ha hr ht id s hm => ?_,
    fun Q Q' hQ hQ' => ?_⟩
  · have hpromised : ∃ Q, cfg.IsMajority Q ∧ id ∈ Q ∧
        ∀ p ∈ Q, .promised (g'.nodes id).ballot ∈ g.history p := by
      by_cases hsame : (g.nodes id).role = .leader ∧ (g.nodes id).ballot = (g'.nodes id).ballot
      · rw [← hsame.2]
        exact leader_promised hrun hsame.1
      · exact hg.elected hs ⟨hl, rfl, fun hl₀ hb => hsame ⟨hl₀, hb⟩⟩
    obtain ⟨Q, hQ, hid, hall⟩ := hpromised
    exact ⟨Q, hQ, hid, fun p hp => earlier_promised hrun (hall p hp)⟩
  · subst ha
    obtain ⟨rfl, rfl, hq⟩ := hm.votes hr ht hs
    have howner := (hg.form.rounds rid r (pending_eq_some.mp hr).1).job entry j ht
    obtain ⟨Q, hQ, hid, hall⟩ := hg.majority hr hq
    rw [ht] at hall
    exact ⟨howner, rfl, Q, hQ, howner ▸ hid, fun p hp => earlier_stored hrun (hall p hp)⟩
  · exact cfg.quorums.meet Q Q' (Config.isMajority_iff.mp hQ) (Config.isMajority_iff.mp hQ')

/-- An election of `A` with the promise of `B`, up to the count. -/
def unlessCounted : List Action := (election "A" ["B"] 0).dropLast

/-- The election and a proposal, up to the count. -/
def unlessCommitted : List Action :=
  election "A" ["B"] 0 ++ (proposal "A" ["B"] 3 [120]).dropLast

/-- The entry of an ACCEPT round. -/
def acceptEntry (r : Round) : Option Entry :=
  match r.task with
  | .accept entry _ => some entry
  | _ => none

theorem task_of_acceptEntry {r : Round} {entry : Entry} (h : acceptEntry r = some entry) :
    ∃ j, r.task = .accept entry j := by
  unfold acceptEntry at h
  split at h
  · rename_i entry' j ht
    obtain rfl := Option.some.inj h
    exact ⟨j, ht⟩
  · cases h

theorem majority_behind_three :
    (∃ g g', Run (step threeReplicas) always init unlessCounted g ∧
      g.step threeReplicas (.conclude 2 false 1) = some g' ∧ Elected g g' "A" ⟨1, "A"⟩ ∧
      ∃ Q, threeReplicas.IsMajority Q ∧ "A" ∈ Q ∧ ∀ p ∈ Q, Earlier threeReplicas unlessCounted
        fun g => (g.nodes p).log.promised = ⟨1, "A"⟩) ∧
    ∃ g g', Run (step threeReplicas) always init unlessCommitted g ∧
      g.step threeReplicas (.conclude 4 false 1) = some g' ∧ Marked g g' "A" 1 ∧
      ∃ Q, threeReplicas.IsMajority Q ∧ "A" ∈ Q ∧ ∀ p ∈ Q, Earlier threeReplicas unlessCommitted
        fun g => (g.nodes p).log.entries 1 = some ⟨1, ⟨1, "A"⟩, [120]⟩ := by
  constructor
  · obtain ⟨g, hrun, h⟩ := Run.exists_of_exec_map (step threeReplicas) always init unlessCounted
      (fun g => ((g.nodes "A").role, (g.step threeReplicas (.conclude 2 false 1)).map fun g' =>
        ((g'.nodes "A").role, (g'.nodes "A").ballot)))
      (.candidate, some (.leader, ⟨1, "A"⟩)) (by decide +kernel)
    obtain ⟨hrole, hstep⟩ := Prod.mk.inj h
    obtain ⟨g', hs, hafter⟩ := Option.map_eq_some_iff.mp hstep
    obtain ⟨hl, hb⟩ := Prod.mk.inj hafter
    have hQ := (majority_behind hrun hs).1 "A" hl
    rw [hb] at hQ
    exact ⟨g, g', hrun, hs, ⟨hl, hb, by simp [hrole]⟩, hQ⟩
  · obtain ⟨g, hrun, h⟩ := Run.exists_of_exec_map (step threeReplicas) always init unlessCommitted
      (fun g => ((g.nodes "A").committed 1, (g.pending 4).bind acceptEntry,
        (g.step threeReplicas (.conclude 4 false 1)).map fun g' => (g'.nodes "A").committed 1))
      (false, some ⟨1, ⟨1, "A"⟩, [120]⟩, some true) (by decide +kernel)
    simp only [Prod.mk.injEq] at h
    obtain ⟨hold, hround, hstep⟩ := h
    obtain ⟨r, hr, he⟩ := Option.bind_eq_some_iff.mp hround
    obtain ⟨j, ht⟩ := task_of_acceptEntry he
    obtain ⟨g', hs, hnew⟩ := Option.map_eq_some_iff.mp hstep
    obtain ⟨-, -, hQ⟩ :=
      (majority_behind hrun hs).2.1 4 false 1 r _ _ rfl hr ht "A" 1 ⟨hold, hnew⟩
    exact ⟨g, g', hrun, hs, ⟨hold, hnew⟩, hQ⟩

end

end ReplicaGroup

end PaxosPayments.Paxos
