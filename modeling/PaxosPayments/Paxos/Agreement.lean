import PaxosPayments.Paxos.Assignment
import PaxosPayments.Paxos.Recovery

/-!
# Agreement

The replicas of a group, seen as the acceptors of `Voting`: `ReplicaGroup.record` is their history
of promises, votes and proposals. `Safe` is the invariant. The record is sound, every replica is a
safe acceptor, and every round of messages may be relied on for what its owner concludes from it: an
ACCEPT was voted for by its owner, a positive reply to it is a vote, a promise reports on all votes
of its sender, a heartbeat announces slots that its sender has committed, and the reply to a
catch-up holds chosen values.

The code does not guarantee all that this needs. `Safe` is kept by the steps that meet `guarded`
(`safe_step`), and under it
* two replicas apply the same command in a slot (`applied_agree`);
* the command of a slot that a replica marked committed does not change (`committed_stable`).

Without the conditions both fail: `applied_disagree` and `committed_overwritten` are runs.
-/

namespace PaxosPayments.Paxos

/-! ## What a round may be relied on for -/

section Rounds

variable (qs : Voting.Quorums NodeID) (σ : Votes) (done : NodeID → ℕ → Bool)

/-- What a task relies on: an ACCEPT on the vote of its owner, a heartbeat on the slots its owner
has committed (`done`). -/
def Task.Safe (owner : NodeID) : Task → Prop
  | .accept entry _ => σ.voted owner entry.slot entry.ballot entry.command
  | .heartbeat _ commitIndex => ∀ s, 1 ≤ s → s ≤ commitIndex → done owner s = true
  | .catchUp first _ => 1 ≤ first
  | _ => True

/-- What the reply `m` to a task says. -/
def Task.Trusts (m : Message) : Task → Prop
  | .prepare next first => m.ok = true → m.Reports qs σ next first
  | .accept entry _ => m.ok = true → σ.voted m.sender entry.slot entry.ballot entry.command
  | .catchUp _ commitIndex => ∀ e ∈ m.entries, e.slot ≤ commitIndex → e.Proposed σ ∧ e.Backed qs σ
  | _ => True

/-- The reply `m` was given in the round. -/
def Round.Replied (r : Round) (m : Message) : Prop :=
  (∃ p, r.rpc p = .answered m) ∨ m ∈ r.replies

/-- The round may be relied on; the source of a catch-up has committed what it is asked for. -/
structure Round.Safe (r : Round) : Prop where
  task : r.task.Safe σ done r.owner
  reply : ∀ m, r.Replied m → r.task.Trusts qs σ m
  source : ∀ first commitIndex, r.task = .catchUp first commitIndex → ∀ p, r.rpc p = .sent →
    ∀ s, 1 ≤ s → s ≤ commitIndex → done p s = true

end Rounds

section

variable {qs : Voting.Quorums NodeID} {σ τ : Votes} {done done' : NodeID → ℕ → Bool} {r : Round}
  {p : NodeID} {reply : Message}

theorem Task.Trusts.mono {m : Message} {task : Task} (he : Voting.Extends σ τ)
    (h : task.Trusts qs σ m) : task.Trusts qs τ m := by
  cases task with
  | prepare next first => exact fun hok => (h hok).mono he
  | accept entry j => exact fun hok => he.voted (h hok)
  | catchUp first commitIndex =>
    intro e hm hs
    obtain ⟨hp, hb⟩ := h e hm hs
    exact ⟨he.proposed hp, he.backed hb⟩
  | probe => trivial
  | heartbeat b commitIndex => trivial

theorem Round.Safe.mono (he : Voting.Extends σ τ)
    (hd : ∀ a s, done a s = true → done' a s = true) (h : r.Safe qs σ done) :
    r.Safe qs τ done' := by
  refine ⟨?_, fun m hm => (h.reply m hm).mono he,
    fun first ci ht p hp s h₁ h₂ => hd _ _ (h.source first ci ht p hp s h₁ h₂)⟩
  have ht := h.task
  cases htask : r.task with
  | accept entry j =>
    rw [htask] at ht
    exact he.voted ht
  | heartbeat b ci =>
    rw [htask] at ht
    exact fun s h₁ h₂ => hd _ _ (ht s h₁ h₂)
  | catchUp first ci =>
    rw [htask] at ht
    exact ht
  | probe => trivial
  | prepare next first => trivial

theorem Round.Safe.answer (h : r.Safe qs σ done) (hm : r.task.Trusts qs σ reply) :
    (r.answer p reply).Safe qs σ done := by
  refine ⟨h.task, fun m hrep => ?_, fun first ci ht q hq => ?_⟩
  · rcases hrep with ⟨q, hq⟩ | hold
    · simp only [Round.answer, Function.update_apply] at hq
      split_ifs at hq
      · obtain rfl := Rpc.answered.inj hq
        exact hm
      · exact h.reply m (Or.inl ⟨q, hq⟩)
    · exact h.reply m (Or.inr hold)
  · simp only [Round.answer, Function.update_apply] at hq
    split_ifs at hq
    exact h.source first ci ht q hq

theorem Round.Safe.collect (h : r.Safe qs σ done) (hrpc : r.rpc p = .answered reply) :
    (r.collect p reply).Safe qs σ done := by
  refine ⟨h.task, fun m hrep => ?_, fun first ci ht q hq => ?_⟩
  · rcases hrep with ⟨q, hq⟩ | hmem
    · simp only [Round.collect, Function.update_apply] at hq
      split_ifs at hq
      exact h.reply m (Or.inl ⟨q, hq⟩)
    · simp only [Round.collect, List.mem_append, List.mem_singleton] at hmem
      rcases hmem with hmem | rfl
      · exact h.reply m (Or.inr hmem)
      · exact h.reply m (Or.inl ⟨p, hrpc⟩)
  · simp only [Round.collect, Function.update_apply] at hq
    split_ifs at hq
    exact h.source first ci ht q hq

theorem Round.Safe.close (h : r.Safe qs σ done) : r.close.Safe qs σ done :=
  ⟨h.task, h.reply, h.source⟩

end

/-! ## The record of a group -/

namespace ReplicaGroup

variable {cfg : Config} {g g' : ReplicaGroup} {id : NodeID} {n : Node}

/-- What the replicas of the group have promised, voted for and proposed. -/
def record (g : ReplicaGroup) : Votes where
  bal a := (g.nodes a).log.promised
  voted a s b v := .voted ⟨s, b, v⟩ ∈ (g.nodes a).history
  proposed s b v := ⟨s, b, v⟩ ∈ g.assigned

/-- The slots that each replica has marked committed. -/
def done (g : ReplicaGroup) (a : NodeID) (s : ℕ) : Bool := (g.nodes a).committed s

/-- The record goes on, and no commitment is taken back. -/
structure Grows (g g' : ReplicaGroup) : Prop where
  record : Voting.Extends g.record g'.record
  done : ∀ a s, g.done a s = true → g'.done a s = true

theorem Grows.refl (g : ReplicaGroup) : Grows g g := ⟨.refl _, fun _ _ => id⟩

theorem Grows.of_eq (hnodes : g'.nodes = g.nodes) (hass : g'.assigned = g.assigned) :
    Grows g g' := by
  have hrec : g'.record = g.record := by simp [ReplicaGroup.record, hnodes, hass]
  have hdone : g'.done = g.done := by simp [ReplicaGroup.done, hnodes, funext_iff]
  exact ⟨hrec ▸ .refl _, fun _ _ hs => hdone ▸ hs⟩

theorem Grows.trans {g'' : ReplicaGroup} (h : Grows g g') (h' : Grows g' g'') : Grows g g'' :=
  ⟨h.record.trans h'.record, fun a s hs => h'.done a s (h.done a s hs)⟩

/-- The updates of a step to the record: one replica, and new proposals. -/
theorem Grows.of_node (hp : (g.nodes id).log.promised ≤ n.log.promised)
    (hv : ∀ e, .voted e ∈ (g.nodes id).history → .voted e ∈ n.history)
    (hf : ∀ e, .voted e ∈ n.history →
      .voted e ∈ (g.nodes id).history ∨ (g.nodes id).log.promised ≤ e.ballot)
    (hc : ∀ s, (g.nodes id).committed s = true → n.committed s = true)
    (hnodes : g'.nodes = (g.setNode id n).nodes) (hass : g.assigned ⊆ g'.assigned) :
    Grows g g' := by
  have hself : g'.nodes id = n := by simp [hnodes, setNode]
  have hne : ∀ a, a ≠ id → g'.nodes a = g.nodes a := fun a ha => by simp [hnodes, setNode, ha]
  refine ⟨⟨fun a => ?_, fun {a s b v} h => ?_, fun h => hass h, fun {a s b v} h => ?_⟩,
    fun a s h => ?_⟩ <;> by_cases ha : a = id
  · subst ha
    simpa [ReplicaGroup.record, hself] using hp
  · simp [ReplicaGroup.record, hne a ha]
  · subst ha
    simpa [ReplicaGroup.record, hself] using hv _ h
  · simpa [ReplicaGroup.record, hne a ha] using h
  · subst ha
    simp only [ReplicaGroup.record, hself] at h ⊢
    exact hf _ h
  · simp only [ReplicaGroup.record, hne a ha] at h ⊢
    exact Or.inl h
  · subst ha
    simpa [ReplicaGroup.done, hself] using hc s h
  · simpa [ReplicaGroup.done, hne a ha] using h

theorem Grows.of_grows (hn : (g.nodes id).Grows n) (hnodes : g'.nodes = (g.setNode id n).nodes)
    (hass : g.assigned ⊆ g'.assigned) : Grows g g' :=
  .of_node hn.promised hn.voted hn.fresh hn.committed hnodes hass

end ReplicaGroup

open ReplicaGroup

/-- The record of the group is sound, its replicas are safe acceptors, and its rounds may be relied
on. -/
structure Safe (cfg : Config) (g : ReplicaGroup) : Prop where
  sound : Voting.Sound cfg.quorums g.record
  nodes : ∀ a, (g.nodes a).Safe cfg.quorums g.record
  rounds : ∀ rid r, g.rounds rid = some r → r.Safe cfg.quorums g.record g.done

namespace Safe

variable {cfg : Config} {g g' : ReplicaGroup} {id : NodeID} {n : Node}

theorem init (cfg : Config) : Safe cfg ReplicaGroup.init where
  sound :=
    { votes := by simp [record, ReplicaGroup.init, Node.fresh]
      unique := by simp [record, ReplicaGroup.init]
      safe := by simp [record, ReplicaGroup.init] }
  nodes _ := Node.Safe.fresh _ _
  rounds := by simp [ReplicaGroup.init]

/-- The index of a replica does not wrap: it is 0 or a slot that was assigned. -/
theorem applied_lt (h : Safe cfg g) (hassign : Assign g) (p : NodeID) :
    (g.nodes p).appliedIndex + 1 < 2 ^ 64 := by
  rcases Nat.eq_zero_or_pos (g.nodes p).appliedIndex with hzero | hpos
  · rw [hzero]
    decide
  · obtain ⟨e, he, hslot, -⟩ := (h.nodes p).committed _ ((h.nodes p).upTo _ hpos le_rfl)
    exact hslot ▸ hassign.few e ((h.nodes p).stored _ e he)

/-- A step from a safe group to `g'`. -/
structure Advances (cfg : Config) (g g' : ReplicaGroup) : Prop where
  grows : Grows g g'
  safe : Safe cfg g'

/-- A step to `g'`: what has to be shown of the replicas is relative to the record before it, and
only the proposals and rounds that are new have to be looked at. -/
theorem next (h : Safe cfg g) (hgrow : Grows g g') (hassign : Assign g')
    (hnodes : ∀ a, (g'.nodes a).Safe cfg.quorums g.record)
    (hnew : ∀ e ∈ g'.assigned, e ∈ g.assigned ∨
      Voting.SafeBelow cfg.quorums g.record e.slot e.ballot e.command)
    (hrounds : ∀ rid r, g'.rounds rid = some r → g.rounds rid = some r ∨
      r.Safe cfg.quorums g'.record g'.done) : Advances cfg g g' := by
  refine ⟨hgrow, ?_, fun a => (hnodes a).mono hgrow.record, fun rid r hr => ?_⟩
  · refine h.sound.extend hgrow.record (fun {a s b v} hv => ?_) (fun {s b v v'} hp hp' => ?_)
      (fun {s b v} hp => hnew ⟨s, b, v⟩ hp)
    · obtain ⟨-, hp, -⟩ := (hnodes a).votes ⟨s, b, v⟩ hv
      exact hgrow.record.proposed hp
    · exact hassign.unique _ hp _ hp' rfl rfl
  · rcases hrounds rid r hr with hold | hsafe
    · exact (h.rounds rid r hold).mono hgrow.record hgrow.done
    · exact hsafe

/-- A step of one replica that proposes nothing. -/
theorem nodeStep (h : Safe cfg g) (hassign : Assign g') (hn : (g.nodes id).Grows n)
    (hsafe : n.Safe cfg.quorums g.record) (hnodes : g'.nodes = (g.setNode id n).nodes)
    (hass : g'.assigned = g.assigned)
    (hrounds : ∀ rid r, g'.rounds rid = some r → g.rounds rid = some r ∨
      r.Safe cfg.quorums g'.record g'.done) : Advances cfg g g' := by
  refine h.next (.of_grows hn hnodes (fun e he => hass ▸ he)) hassign ?_
    (fun e he => Or.inl (hass ▸ he)) hrounds
  rw [hnodes]
  exact forall_setNode h.nodes id hsafe

/-- A step that changes no replica. -/
theorem quietStep (h : Safe cfg g) (hassign : Assign g') (hnodes : g'.nodes = g.nodes)
    (hass : g'.assigned = g.assigned)
    (hrounds : ∀ rid r, g'.rounds rid = some r → g.rounds rid = some r ∨
      r.Safe cfg.quorums g'.record g'.done) : Advances cfg g g' := by
  refine h.nodeStep hassign (Node.Grows.refl (g.nodes "")) (h.nodes "") ?_ hass hrounds
  rw [setNode_self, hnodes]

/-! ## Rounds -/

/-- A round that is closed. -/
theorem closed (h : Safe cfg g) (hgrow : Grows g g') {rid : ℕ} {r : Round}
    (hr : g.pending rid = some r) (hrounds : g'.rounds = (g.setRound rid r.close).rounds) :
    ∀ rid' r', g'.rounds rid' = some r' → g.rounds rid' = some r' ∨
      r'.Safe cfg.quorums g'.record g'.done := by
  intro rid' r' hr'
  rw [hrounds] at hr'
  rcases setRound_eq_some hr' with ⟨rfl, rfl⟩ | ⟨-, hold⟩
  · have hs := h.rounds rid' r (pending_eq_some.mp hr).1
    exact Or.inr (hs.mono hgrow.record hgrow.done).close
  · exact Or.inl hold

/-- A round that is opened. -/
theorem opened {g₀ : ReplicaGroup} {owner : NodeID} {targets : List NodeID} {task : Task}
    (hrounds : g'.rounds = (g₀.openRound owner targets task).rounds)
    (htask : task.Safe g'.record g'.done owner)
    (hsource : ∀ first ci, task = .catchUp first ci → ∀ p ∈ targets, ∀ s, 1 ≤ s → s ≤ ci →
      g'.done p s = true) :
    ∀ rid' r', g'.rounds rid' = some r' → g₀.rounds rid' = some r' ∨
      r'.Safe cfg.quorums g'.record g'.done := by
  intro rid' r' hr'
  rw [hrounds] at hr'
  rcases setRound_eq_some hr' with ⟨rfl, rfl⟩ | ⟨-, hold⟩
  · refine Or.inr ⟨htask, fun m hm => ?_, fun first ci ht p hp => ?_⟩
    · rcases hm with ⟨p, hp⟩ | hm
      · dsimp only at hp
        split_ifs at hp
      · simp at hm
    · dsimp only at hp
      split_ifs at hp with hmem
      exact hsource first ci ht p hmem
  · exact Or.inl hold

/-! ## Handling a request -/

section Answer

variable {rid disk : ℕ} {p : NodeID} {r : Round}

/-- The replica that handles a request remains a safe acceptor. -/
theorem handle_node (h : Safe cfg g) (hr : g.rounds rid = some r)
    (hkept : g.committedKept (.deliver rid p disk) = true) :
    ((g.nodes p).handle p (r.task.request r.owner) disk).1.Safe cfg.quorums g.record := by
  have hn := h.nodes p
  have ht := (h.rounds rid r hr).task
  cases htask : r.task with
  | probe => exact hn
  | prepare next first => exact hn.handlePrepare p _ disk
  | accept entry j =>
    rw [htask] at ht
    refine hn.handleAccept h.sound p disk (h.sound.votes ht) fun hle e he hc => ?_
    exact le_of_keepsCommitted (keepsCommitted_deliver hkept hr htask hle) he hc
  | heartbeat b ci => exact hn.handleCommit p _
  | catchUp first ci => exact hn

/-- What it replies may be relied on. -/
theorem handle_reply (h : Safe cfg g) (hr : g.rounds rid = some r) (hsent : r.rpc p = .sent)
    (hg' : Grows g g')
    (hnode : g'.nodes p = ((g.nodes p).handle p (r.task.request r.owner) disk).1) :
    r.task.Trusts cfg.quorums g'.record
      ((g.nodes p).handle p (r.task.request r.owner) disk).2.1 := by
  have hn := (h.nodes p).mono hg'.record
  have hsender := Node.handle_sender p (g.nodes p) (r.task.request r.owner) disk
  have hsource := (h.rounds rid r hr).source
  cases htask : r.task with
  | probe => trivial
  | heartbeat b ci => trivial
  | prepare next first =>
    rw [htask] at hnode hsender
    intro hok
    obtain ⟨h₁, h₂, h₃⟩ := Node.handlePrepare_ok hok
    refine ⟨?_, fun e he => ?_, ?_⟩
    · rw [hsender]
      change next ≤ (g'.nodes p).log.promised
      rw [hnode]
      exact h₁.ge
    · have he' : e ∈ (g.nodes p).log.entriesFrom first := h₃ ▸ he
      exact hn.proposed he'
    · rw [hsender]
      have hcov := hn.covers (a := p) (fun v hv => ?_) next first
      · exact h₃.symm ▸ hcov
      · change .voted v ∈ (g'.nodes p).history at hv
        rw [hnode] at hv
        have hv' : .voted v ∈ .promised next :: (g.nodes p).history := h₂ ▸ hv
        simpa using hv'
  | accept entry j =>
    rw [htask] at hnode hsender
    intro hok
    rw [hsender]
    change .voted _ ∈ (g'.nodes p).history
    rw [hnode]
    exact Node.handleAccept_ok hok
  | catchUp first ci =>
    intro e he hs
    have he' : e ∈ (g.nodes p).log.entriesFrom first := he
    obtain ⟨s, hfirst, -, hstored⟩ := Log.mem_entriesFrom.mp he'
    obtain rfl := hn.slot s e hstored
    have hpos : 1 ≤ first := by
      have ht := (h.rounds rid r hr).task
      rw [htask] at ht
      exact ht
    have hdone := hsource first ci htask p hsent e.slot (by omega) hs
    obtain ⟨e', he', -, hb⟩ := (h.nodes p).committed e.slot hdone
    obtain rfl := Option.some.inj (he'.symm.trans hstored)
    exact ⟨hn.stored _ _ hstored, hg'.record.backed hb⟩

/-- The rounds after a request is handled. -/
theorem answered (h : Safe cfg g) (hr : g.rounds rid = some r) (hsent : r.rpc p = .sent)
    (hg' : Grows g g')
    (hnode : g'.nodes p = ((g.nodes p).handle p (r.task.request r.owner) disk).1) {rid' : ℕ}
    {r' : Round} {g₀ : ReplicaGroup} (hg₀ : g₀.rounds = g.rounds)
    (hr' : (g₀.setRound rid
      (r.answer p ((g.nodes p).handle p (r.task.request r.owner) disk).2.1)).rounds rid' =
        some r') :
    g.rounds rid' = some r' ∨ r'.Safe cfg.quorums g'.record g'.done := by
  rcases setRound_eq_some hr' with ⟨rfl, rfl⟩ | ⟨-, hold⟩
  · have hs := (h.rounds rid' r hr).mono hg'.record hg'.done
    exact Or.inr (hs.answer (h.handle_reply hr hsent hg' hnode))
  · exact Or.inl (hg₀ ▸ hold)

/-- A heartbeat is handled that starts a catch-up, from the leader that sent it. -/
theorem fetch (h : Safe cfg g) (hassign : Assign g) {f : Node.Fetch} (hr : g.rounds rid = some r)
    (hsent : r.rpc p = .sent)
    (hf : ((g.nodes p).handle p (r.task.request r.owner) disk).2.2 = some f)
    (hkept : g.committedKept (.deliver rid p disk) = true)
    (hassign' : Assign (((g.setNode p
        ((g.nodes p).handle p (r.task.request r.owner) disk).1).setRound rid
        (r.answer p ((g.nodes p).handle p (r.task.request r.owner) disk).2.1)).openRound p
        [f.source] (.catchUp f.first f.commitIndex))) :
    Advances cfg g (((g.setNode p
      ((g.nodes p).handle p (r.task.request r.owner) disk).1).setRound rid
      (r.answer p ((g.nodes p).handle p (r.task.request r.owner) disk).2.1)).openRound p
      [f.source] (.catchUp f.first f.commitIndex)) := by
  set g' := ((g.setNode p ((g.nodes p).handle p (r.task.request r.owner) disk).1).setRound rid
    (r.answer p ((g.nodes p).handle p (r.task.request r.owner) disk).2.1)).openRound p
    [f.source] (.catchUp f.first f.commitIndex)
  have hgrow : Grows g g' := .of_grows (.handle _ _ _ _) rfl fun _ => id
  obtain ⟨hkind, rfl⟩ := Node.handle_fetch hf
  have hdone : ∀ s, 1 ≤ s → s ≤ (r.task.request r.owner).commitIndex →
      g'.done (r.task.request r.owner).sender s = true := by
    have ht := (h.rounds rid r hr).task
    cases htask : r.task with
    | heartbeat b ci =>
      rw [htask] at ht
      exact fun s h₁ h₂ => hgrow.done _ _ (ht s h₁ h₂)
    | _ => simp [htask, Task.request] at hkind
  refine h.nodeStep hassign' (.handle _ _ _ _) (h.handle_node hr hkept) rfl rfl
    fun rid' r' hr' => ?_
  have hsource : ∀ first ci, Task.catchUp (uint64Succ (g.nodes p).appliedIndex)
      (r.task.request r.owner).commitIndex = .catchUp first ci →
      ∀ q ∈ [(r.task.request r.owner).sender], ∀ s, 1 ≤ s → s ≤ ci → g'.done q s = true := by
    intro first ci ht q hq s h₁ h₂
    obtain ⟨-, rfl⟩ := Task.catchUp.inj ht
    rw [List.mem_singleton.mp hq]
    exact hdone s h₁ h₂
  have hfirst : 1 ≤ uint64Succ (g.nodes p).appliedIndex := by
    rw [uint64Succ_of_lt (h.applied_lt hassign p)]
    exact Nat.succ_pos _
  rcases Safe.opened rfl (by simpa [Task.Safe] using hfirst) hsource rid' r' hr' with hold | hnew
  · exact h.answered hr hsent hgrow (by simp [g', ReplicaGroup.setNode]) rfl hold
  · exact Or.inr hnew

end Answer

/-- A slot is handed out: it is free. -/
theorem propose (h : Safe cfg g) {command : Command} (hl : (g.nodes id).role = .leader)
    (hwrap : (g.nodes id).nextSlot + 1 < 2 ^ 64)
    (hassign' : Assign (((g.setNode id
        { g.nodes id with nextSlot := uint64Succ (g.nodes id).nextSlot }).assign
      [⟨(g.nodes id).nextSlot, (g.nodes id).ballot, command⟩]).addJob
      ⟨id, .propose, (g.nodes id).nextSlot, command, (g.nodes id).ballot⟩)) :
    Advances cfg g (((g.setNode id
        { g.nodes id with nextSlot := uint64Succ (g.nodes id).nextSlot }).assign
      [⟨(g.nodes id).nextSlot, (g.nodes id).ballot, command⟩]).addJob
      ⟨id, .propose, (g.nodes id).nextSlot, command, (g.nodes id).ballot⟩) := by
  have hfree := (h.nodes id).leader hl
  refine h.next (.of_node (n := { g.nodes id with nextSlot := uint64Succ (g.nodes id).nextSlot })
    le_rfl (fun _ hv => hv) (fun _ => Or.inl) (fun _ hc => hc) rfl
    (List.subset_cons_self _ _)) hassign' ?_ (fun e he => ?_) fun _ _ => Or.inl
  · refine forall_setNode h.nodes id ((h.nodes id).quiet rfl rfl rfl rfl fun _ s hs v => ?_)
    rw [uint64Succ_of_lt hwrap] at hs
    exact hfree s ((Nat.le_succ _).trans hs) v
  · rcases List.mem_cons.mp he with rfl | hold
    · exact Or.inr (hfree _ le_rfl _)
    · exact Or.inl hold

/-! ## Elections and commitments -/

section Conclude

variable {rid first : ℕ} {r : Round} {next : Ballot} {entry : Entry} {j : Job}

/-- The promises of a won campaign come from a quorum that has reached its ballot, and cover its
votes. -/
theorem campaign_quorum (h : Safe cfg g) (hform : Form cfg g) (hassign : Assign g)
    (hr : g.pending rid = some r) (ht : r.task = .prepare next first)
    (hq : cfg.quorum ≤ ReplicaGroup.votes r.replies) :
    ∃ Q, cfg.quorums.IsQuorum Q ∧ (∀ a ∈ Q, next ≤ g.record.bal a) ∧
      ∀ a ∈ Q, Covers cfg.quorums g.record a (gathered (g.nodes r.owner) first r.replies) next
        first := by
  obtain ⟨hr', hopen⟩ := pending_eq_some.mp hr
  have hcamp := hassign.campaign rid r.owner next ⟨r, first, hr', hopen, rfl, ht⟩
  have hrep : ∀ m ∈ r.replies, m.ok = true → m.Reports cfg.quorums g.record next first := by
    intro m hm hok
    have htrust := (h.rounds rid r hr').reply m (Or.inr hm)
    rw [ht] at htrust
    exact htrust hok
  refine ⟨r.voters, (hform.rounds rid r hr').quorum hq, fun a ha => ?_,
    fun a ha v hv hs hb => ?_⟩ <;>
    rcases Round.mem_voters.mp ha with rfl | ⟨m, hm, hok, rfl⟩
  · exact hcamp.reached
  · exact (hrep m hm hok).reached
  · obtain ⟨e, he, hrest⟩ := (h.nodes r.owner).covers (fun _ => id) next first v hv hs hb
    exact ⟨e, List.mem_append_left _ he, hrest⟩
  · obtain ⟨e, he, hrest⟩ := (hrep m hm hok).covers v hv hs hb
    refine ⟨e, List.mem_append_right _ ?_, hrest⟩
    exact List.mem_flatMap.mpr ⟨m, List.mem_filter.mpr ⟨hm, hok⟩, he⟩

theorem gathered_proposed (h : Safe cfg g) (hr : g.pending rid = some r)
    (ht : r.task = .prepare next first) :
    ∀ e ∈ gathered (g.nodes r.owner) first r.replies, e.Proposed g.record := by
  intro e he
  rcases List.mem_append.mp he with he | he
  · exact (h.nodes r.owner).proposed he
  · obtain ⟨m, hm, he⟩ := List.mem_flatMap.mp he
    obtain ⟨hm, hok⟩ := List.mem_filter.mp hm
    have htrust := (h.rounds rid r (pending_eq_some.mp hr).1).reply m (Or.inr hm)
    rw [ht] at htrust
    exact (htrust hok).proposed e he

/-- **A won election**: what the new leader re-proposes is safe, and its further slots are free. -/
theorem win (h : Safe cfg g) (hform : Form cfg g) (hassign : Assign g)
    (hr : g.pending rid = some r) (ht : r.task = .prepare next first)
    (hq : cfg.quorum ≤ ReplicaGroup.votes r.replies)
    (hwrap : (Node.gather first (gathered (g.nodes r.owner) first r.replies)).2 + 1 < 2 ^ 64)
    (hassign' : Assign ((g.setRound rid r.close).winCampaign r.owner next first r.replies)) :
    Advances cfg g ((g.setRound rid r.close).winCampaign r.owner next first r.replies) := by
  obtain ⟨Q, hQ, hbal, hcov⟩ := h.campaign_quorum hform hassign hr ht hq
  have hprop := h.gathered_proposed hr ht
  set es := gathered (g.nodes r.owner) first r.replies
  set n := (g.nodes r.owner).becomeLeader r.owner next first (Node.gather first es).2 with hn
  have hnodes : ((g.setRound rid r.close).winCampaign r.owner next first r.replies).nodes =
      (g.setNode r.owner n).nodes := by
    rw [winCampaign_nodes]
    rfl
  have hgrow : Grows g ((g.setRound rid r.close).winCampaign r.owner next first r.replies) := by
    refine .of_node (n := n) le_rfl (fun _ => id) (fun _ => Or.inl) (fun _ => id) hnodes ?_
    rw [winCampaign_assigned]
    exact List.subset_append_right _ _
  have hfree : ∀ s, n.nextSlot ≤ s → ∀ v, Voting.SafeBelow cfg.quorums g.record s next v := by
    intro s hs v
    have hnext : first ≤ n.nextSlot ∧ (Node.gather first es).2 < n.nextSlot := by
      simp only [hn, Node.becomeLeader, uint64Succ_of_lt hwrap]
      split_ifs <;> omega
    exact safeBelow_free hQ hbal hcov (by omega) (gather_eq_none (by omega)) v
  refine h.next hgrow hassign' ?_ (fun e he => ?_)
    (h.closed hgrow hr (by rw [winCampaign_rounds]))
  · rw [hnodes]
    exact forall_setNode h.nodes r.owner ((h.nodes r.owner).quiet rfl rfl rfl rfl fun _ => hfree)
  · rw [winCampaign_assigned] at he
    rcases List.mem_append.mp he with he | he
    · obtain ⟨s, hs, -, rfl⟩ := Assign.mem_recovered.mp he
      right
      change Voting.SafeBelow _ _ s next (Node.recoveredCommand (Node.gather first es).1 s)
      unfold Node.recoveredCommand
      split
      · rename_i em hem
        exact safeBelow_recovered h.sound hQ hbal hprop hcov hem
      · rename_i hnone
        exact safeBelow_free hQ hbal hcov hs hnone _
    · exact Or.inl he

/-- **A committed slot is chosen**: the votes of the leader and of the positive replies are a
quorum. -/
theorem chosen (h : Safe cfg g) (hform : Form cfg g) (hr : g.pending rid = some r)
    (ht : r.task = .accept entry j) (hq : cfg.quorum ≤ ReplicaGroup.votes r.replies) :
    Voting.ChosenAt cfg.quorums g.record entry.slot entry.ballot entry.command := by
  have hr' := (pending_eq_some.mp hr).1
  have hs := h.rounds rid r hr'
  refine ⟨r.voters, (hform.rounds rid r hr').quorum hq, fun a ha => ?_⟩
  rcases Round.mem_voters.mp ha with rfl | ⟨m, hm, hok, rfl⟩
  · have htask := hs.task
    rw [ht] at htask
    exact htask
  · have htrust := hs.reply m (Or.inr hm)
    rw [ht] at htrust
    exact htrust hok

/-- The entry that the leader holds now at a committed slot is for the command that was chosen. -/
theorem settled (h : Safe cfg g) (hform : Form cfg g) (hr : g.pending rid = some r)
    (ht : r.task = .accept entry j) (hq : cfg.quorum ≤ ReplicaGroup.votes r.replies) :
    (g.nodes j.owner).Settled cfg.quorums g.record entry.slot := by
  have hr' := (pending_eq_some.mp hr).1
  have hown : g.record.voted r.owner entry.slot entry.ballot entry.command := by
    have htask := (h.rounds rid r hr').task
    rw [ht] at htask
    exact htask
  rw [(hform.rounds rid r hr').job entry j ht]
  have hn := h.nodes r.owner
  obtain ⟨-, -, e, he, hans⟩ := hn.votes entry hown
  have hslot := hn.slot _ _ he
  have hp : g.record.proposed entry.slot e.ballot e.command := hslot ▸ hn.stored _ _ he
  refine ⟨e, he, hslot, ?_⟩
  unfold Entry.Backed
  rw [hslot]
  exact h.sound.backed_of_answers (h.chosen hform hr ht hq) hp hans

end Conclude

end Safe

namespace ReplicaGroup

variable {cfg : Config} {g g' : ReplicaGroup}

/-- The steps under which the replicas agree. -/
def guarded (cfg : Config) (g : ReplicaGroup) (a : Action) : Bool :=
  g.guardedSlots cfg a && g.ownVoteKept a && g.committedKept a

/-- **Every step keeps the group safe**, when it meets the conditions. -/
theorem safe_step (h : Safe cfg g) (hform : Form cfg g) (hassign : Assign g) {act : Action}
    (hok : g.guarded cfg act = true) (ho : Outcome cfg g act g') : Safe.Advances cfg g g' := by
  simp only [guarded, Bool.and_eq_true] at hok
  obtain ⟨⟨hslots, hown⟩, hcomm⟩ := hok
  have hassign' := assign_step hassign hslots ho
  simp only [guardedSlots, Bool.and_eq_true] at hslots
  obtain ⟨⟨⟨hfresh, hkept⟩, hsame⟩, hwrap⟩ := hslots
  cases ho with
  | @campaign a =>
    have hn : (g.nodes a).Grows { g.nodes a with role := .candidate } :=
      .quiet rfl rfl (fun _ => id) (by simp)
    have hs : Node.Safe cfg.quorums g.record { g.nodes a with role := .candidate } :=
      (h.nodes a).quiet rfl rfl rfl rfl (by simp)
    exact h.nodeStep hassign' hn hs rfl rfl (Safe.opened rfl trivial (by simp))
  | prepare hc =>
    have hle := (lt_of_freshBallot hfresh hc).le
    exact h.nodeStep hassign' (.promise hle) ((h.nodes _).promise hle) rfl rfl
      (Safe.opened rfl trivial (by simp))
  | noPrepare _ hn =>
    exact h.nodeStep hassign' (.stepsDown hn) ((h.nodes _).stepsDown hn) rfl rfl
      fun _ _ => Or.inl
  | propose _ hl => exact h.propose hl (by simpa [noWrap] using hwrap) hassign'
  | @replicate jid disk j hj hl =>
    have hle := le_of_ownVoteKept hown hj hl
    have hbal := le_antisymm (hassign.leader _ hl).reached hle
    have hp : (⟨j.slot, (g.nodes j.owner).ballot, j.command⟩ : Entry).Proposed g.record := by
      rw [eq_under_of_sameLeadership hsame hj hl]
      exact (hassign.jobs j (Or.inl ⟨jid, hj⟩)).entry
    refine h.nodeStep hassign' (.vote hle) ((h.nodes _).vote h.sound hp hbal fun e he hc => ?_) rfl
      rfl (Safe.opened rfl ?_ (by simp))
    · exact le_of_keepsCommitted (keepsCommitted_replicate hcomm hj) he hc
    · simp [Task.Safe, record, setNode, issue]
  | noReplicate _ hn =>
    exact h.nodeStep hassign' (.stepsDown hn) ((h.nodes _).stepsDown hn) rfl rfl
      fun _ _ => Or.inl
  | @heartbeat a =>
    exact h.quietStep hassign' rfl rfl (Safe.opened rfl (h.nodes a).upTo (by simp))
  | apply hn =>
    exact h.nodeStep hassign' (.applyNext hn) ((h.nodes _).applyNext hn) rfl rfl fun _ _ => Or.inl
  | answer hr hsent =>
    refine h.nodeStep hassign' (.handle _ _ _ _) (h.handle_node hr hcomm) rfl rfl fun _ _ hr' => ?_
    exact h.answered hr hsent (.of_grows (.handle _ _ _ _) rfl fun _ => id) (by simp [setNode])
      rfl hr'
  | fetch hr hsent hf => exact h.fetch hassign hr hsent hf hcomm hassign'
  | collect hr hrpc =>
    refine h.quietStep hassign' rfl rfl fun rid' r' hr' => ?_
    rcases setRound_eq_some hr' with ⟨rfl, rfl⟩ | ⟨-, hold⟩
    · exact Or.inr ((h.rounds _ _ (pending_eq_some.mp hr).1).collect hrpc)
    · exact Or.inl hold
  | stop hr hn =>
    exact h.nodeStep hassign' (.stepsDown hn) ((h.nodes _).stepsDown hn) rfl rfl
      (h.closed (.of_grows (.stepsDown hn) rfl fun _ => id) hr rfl)
  | choose hr => exact h.quietStep hassign' rfl rfl (h.closed (.of_eq rfl rfl) hr rfl)
  | @lose rid disk first expired r next hr ht hq hlt =>
    have hle := le_of_adoptionKept hkept hr ht hq hlt
    have hn := (Node.Grows.promise hle).trans
      (.follower _ (g.nodes r.owner).leader (g.nodes r.owner).catchingUp)
    exact h.nodeStep hassign' hn (((h.nodes _).promise hle).follower _ _) rfl rfl
      (h.closed (.of_grows hn rfl fun _ => id) hr rfl)
  | win hr ht hq => exact h.win hform hassign hr ht hq (lt_of_noWrap hwrap hr ht) hassign'
  | @commit rid disk expired r entry j hr ht hq =>
    have hn := Node.Grows.markCommitted (g.nodes j.owner) [entry.slot]
    have hset := h.settled hform hr ht hq
    refine h.nodeStep hassign' hn ((h.nodes _).markCommitted (by simpa using hset)) ?_ ?_ ?_
    · rw [continueJob_nodes]
      rfl
    · rw [continueJob_assigned]
      rfl
    · refine h.closed (.of_grows hn ?_ ?_) hr ?_
      · rw [continueJob_nodes]
        rfl
      · rw [continueJob_assigned]
        exact fun _ => id
      · rw [continueJob_rounds]
        rfl
  | @learn rid disk first commitIndex expired r hr ht =>
    have hn := Node.Grows.concludeCatchUp (g.nodes r.owner) first commitIndex r.replies.head? disk
    refine h.nodeStep hassign' hn ((h.nodes _).concludeCatchUp h.sound disk fun m hm => ?_) rfl rfl
      (h.closed (.of_grows hn rfl fun _ => id) hr rfl)
    have htrust := (h.rounds rid r (pending_eq_some.mp hr).1).reply m
      (Or.inr (List.mem_of_mem_head? hm))
    rw [ht] at htrust
    exact htrust

/-! ## Runs -/

/-- The invariant of a group whose steps are guarded. -/
structure Invariant (cfg : Config) (g : ReplicaGroup) : Prop where
  form : Form cfg g
  assign : Assign g
  safe : Safe cfg g

theorem Invariant.init (cfg : Config) : Invariant cfg init :=
  ⟨Form.init cfg, Assign.init, Safe.init cfg⟩

theorem Invariant.step (h : Invariant cfg g) {act : Action} (hok : g.guarded cfg act = true)
    (hs : g.step cfg act = some g') : Invariant cfg g' := by
  have ho := Outcome.of_step hs
  have hslots : g.guardedSlots cfg act = true := by
    simp only [guarded, Bool.and_eq_true] at hok
    exact hok.1.1
  exact ⟨h.form.step ho, assign_step h.assign hslots ho,
    (safe_step h.safe h.form h.assign hok ho).safe⟩

theorem Invariant.run {acts : List Action} (h : Invariant cfg g)
    (hrun : Run (ReplicaGroup.step cfg) (guarded cfg) g acts g') : Invariant cfg g' :=
  hrun.invariant (fun _ _ _ h hok hs => h.step hok hs) h

theorem Invariant.applied_lt (h : Invariant cfg g) (p : NodeID) :
    (g.nodes p).appliedIndex + 1 < 2 ^ 64 :=
  h.safe.applied_lt h.assign p

/-- **Agreement**: two replicas that apply a command in the same slot apply the same command. -/
theorem applied_agree {acts : List Action} (hrun : Run (step cfg) (guarded cfg) init acts g)
    {a a' : NodeID} {s : ℕ} {c c' : Command} (ha : .applied s c ∈ (g.nodes a).history)
    (ha' : .applied s c' ∈ (g.nodes a').history) : c = c' := by
  have h := ((Invariant.init cfg).run hrun).safe
  obtain ⟨b, hb⟩ := (h.nodes a).applied s c ha
  obtain ⟨b', hb'⟩ := (h.nodes a').applied s c' ha'
  exact h.sound.chosen_agree hb hb'

/-- `A` is elected, its command is accepted by `B`, and `B` learns from a heartbeat that it is
committed. Both apply it. -/
def calmRun : List Action :=
  election "A" ["B"] 0 ++ proposal "A" ["B"] 3 [120] ++
    [.apply "A", .heartbeat "A", .deliver 5 "B" 1] ++ exchange 6 ["A"] 0 ++
    [.conclude 6 false 1, .apply "B"]

theorem applied_agree_three :
    ∃ g, Run (step threeReplicas) (guarded threeReplicas) init calmRun g ∧
      .applied 1 [120] ∈ (g.nodes "A").history ∧ .applied 1 [120] ∈ (g.nodes "B").history ∧
      ∀ c, .applied 1 c ∈ (g.nodes "B").history → c = [120] := by
  obtain ⟨g, hrun, hf⟩ := Run.exists_of_exec_map (step threeReplicas) (guarded threeReplicas) init
    calmRun (fun g => (decide (.applied 1 [120] ∈ (g.nodes "A").history),
      decide (.applied 1 [120] ∈ (g.nodes "B").history))) (true, true) (by decide +kernel)
  simp only [Prod.mk.injEq, decide_eq_true_eq] at hf
  exact ⟨g, hrun, hf.1, hf.2, fun c hc => applied_agree hrun hc hf.1⟩

/-- Two leaders at once: `A` is elected under `1.A` after it has promised `2.B` to `B`, and `C`
accepts the commands of both. -/
theorem applied_disagree :
    ∃ g, Run (step threeReplicas) always init
        (overlappingElections ++ proposal "A" ["C"] 6 [120] ++ [.apply "A"] ++
          proposal "B" ["C"] 8 [121] ++ [.apply "B"]) g ∧
      .applied 1 [120] ∈ (g.nodes "A").history ∧ .applied 1 [121] ∈ (g.nodes "B").history := by
  obtain ⟨g, hrun, hf⟩ := Run.exists_of_exec_map (step threeReplicas) always init
    (overlappingElections ++ proposal "A" ["C"] 6 [120] ++ [.apply "A"] ++
      proposal "B" ["C"] 8 [121] ++ [.apply "B"])
    (fun g => (decide (.applied 1 [120] ∈ (g.nodes "A").history),
      decide (.applied 1 [121] ∈ (g.nodes "B").history))) (true, true) (by decide +kernel)
  simp only [Prod.mk.injEq, decide_eq_true_eq] at hf
  exact ⟨g, hrun, hf⟩

/-! ## Stability of what is committed -/

theorem Invariant.grows {acts : List Action} (h : Invariant cfg g)
    (hrun : Run (ReplicaGroup.step cfg) (guarded cfg) g acts g') : Grows g g' :=
  hrun.relates Grows.refl (fun _ _ _ h₁ h₂ => h₁.trans h₂) (fun _ _ _ h hok hs => h.step hok hs)
    (fun _ _ _ h hok hs => (safe_step h.safe h.form h.assign hok (.of_step hs)).grows) h

/-- **A committed entry is stable**: the command stored at a slot when it is marked committed is the
one stored, applied and served to other replicas at any later time. -/
theorem committed_stable {acts acts' : List Action}
    (hrun : Run (step cfg) (guarded cfg) init acts g)
    (hrun' : Run (step cfg) (guarded cfg) g acts' g') {a : NodeID} {s : ℕ}
    (hc : (g.nodes a).committed s = true) :
    ∃ e, (g.nodes a).log.entries s = some e ∧
      (∃ e', (g'.nodes a).log.entries s = some e' ∧ e'.command = e.command) ∧
      (∀ c, .applied s c ∈ (g'.nodes a).history → c = e.command) ∧
      ∀ msg, ∀ e' ∈ (Node.handleCatchUp a (g'.nodes a) msg).entries, e'.slot = s →
        e'.command = e.command := by
  have h := (Invariant.init cfg).run hrun
  have h' := (h.run hrun').safe
  have hgrow := h.grows hrun'
  obtain ⟨e, he, hslot, hb⟩ := (h.safe.nodes a).committed s hc
  obtain ⟨e', he', hslot', hb'⟩ := (h'.nodes a).committed s (hgrow.done a s hc)
  subst hslot
  have hb : Voting.Backed cfg.quorums g'.record e.slot e.ballot e.command := hgrow.record.backed hb
  have hcmd : e'.command = e.command := by
    unfold Entry.Backed at hb'
    rw [hslot'] at hb'
    exact h'.sound.backed_agree hb' hb
  refine ⟨e, he, ⟨e', he', hcmd⟩, fun c happ => ?_, fun msg e'' hmem hs => ?_⟩
  · obtain ⟨b, hch⟩ := (h'.nodes a).applied e.slot c happ
    exact h'.sound.backed_agree ⟨b, le_rfl, hch⟩ hb
  · obtain ⟨s', -, -, hs'⟩ := Log.mem_entriesFrom.mp hmem
    obtain rfl : s' = e.slot := ((h'.nodes a).slot s' e'' hs').symm.trans hs
    obtain rfl := Option.some.inj (he'.symm.trans hs')
    exact hcmd

theorem committed_stable_three :
    ∃ g g', Run (step threeReplicas) (guarded threeReplicas) init
        (election "A" ["B"] 0 ++ proposal "A" ["B"] 3 [120]) g ∧
      Run (step threeReplicas) (guarded threeReplicas) g [.apply "A", .heartbeat "A"] g' ∧
      (g.nodes "A").committed 1 = true ∧
      ∃ e, (g.nodes "A").log.entries 1 = some e ∧
        ∃ e', (g'.nodes "A").log.entries 1 = some e' ∧ e'.command = e.command := by
  obtain ⟨g, hrun, hf⟩ := Run.exists_of_exec_map (step threeReplicas) (guarded threeReplicas) init
    (election "A" ["B"] 0 ++ proposal "A" ["B"] 3 [120])
    (fun g => ((g.nodes "A").committed 1, (exec (step threeReplicas) (guarded threeReplicas) g
      [.apply "A", .heartbeat "A"]).map fun _ => ())) (true, some ()) (by decide +kernel)
  simp only [Prod.mk.injEq] at hf
  obtain ⟨g', hrun', -⟩ := Run.exists_of_exec_map _ _ _ _ _ _ hf.2
  obtain ⟨e, he, he', -⟩ := committed_stable hrun hrun' hf.1
  exact ⟨g, g', hrun, hrun', hf.1, e, he, he'⟩

/-- A group of five replicas. -/
def fiveReplicas : Config := ⟨["A", "B", "C", "D", "E"], by decide⟩

/-- The ACCEPT of `A`, under `1.A`, is delayed. `B` is elected under `2.B` without having heard of
it, commits another command in the slot, and `C` learns that command by catching up. `C` has
promised nothing. -/
def delayedAccept : List Action :=
  election "A" ["B", "D"] 0 ++ [.propose "A" [120], .replicate 3 1] ++
    election "B" ["D", "E"] 5 ++ proposal "B" ["D", "E"] 8 [121] ++
    [.apply "B", .heartbeat "B", .deliver 10 "C" 1] ++ exchange 11 ["B"] 0 ++ [.conclude 11 false 1]

/-- The delayed ACCEPT replaces the entry that `C` has committed. -/
theorem committed_overwritten :
    ∃ g g', Run (step fiveReplicas) always init delayedAccept g ∧
      Run (step fiveReplicas) always g [.deliver 4 "C" 2] g' ∧
      (g.nodes "C").committed 1 = true ∧
      (g.nodes "C").log.entries 1 = some ⟨1, ⟨2, "B"⟩, [121]⟩ ∧
      (g'.nodes "C").log.entries 1 = some ⟨1, ⟨1, "A"⟩, [120]⟩ := by
  obtain ⟨g, hrun, hf⟩ := Run.exists_of_exec_map (step fiveReplicas) always init delayedAccept
    (fun g => ((g.nodes "C").committed 1, (g.nodes "C").log.entries 1,
      (exec (step fiveReplicas) always g [.deliver 4 "C" 2]).map
        fun g' => (g'.nodes "C").log.entries 1))
    (true, some ⟨1, ⟨2, "B"⟩, [121]⟩, some (some ⟨1, ⟨1, "A"⟩, [120]⟩)) (by decide +kernel)
  simp only [Prod.mk.injEq] at hf
  obtain ⟨g', hrun', hf'⟩ := Run.exists_of_exec_map _ _ _ _ _ _ hf.2.2
  exact ⟨g, g', hrun, hrun', hf.1, hf.2.1, hf'⟩

end ReplicaGroup

end PaxosPayments.Paxos
