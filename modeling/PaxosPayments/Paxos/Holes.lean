import PaxosPayments.Paxos.Promises
import PaxosPayments.Paxos.Threads

/-!
# Slots that nobody works on

The apply loop runs contiguously, so a slot that is neither committed nor being worked on stops
every later one. `Attended g id s` says that slot `s` is committed at `id`, or was handed to a
`Propose` call of `id` that still replicates it, or is yet to come in a recovery loop of `id` that
still runs. Under a leader, all slots that it has handed out or recovered and not yet applied should
be attended.

A `Propose` call that fails makes its leader step down, and so does a round that is refused with a
higher ballot. A recovery loop whose `replicate` fails for lack of votes, or because its entry could
not be written, just ends. If that does not happen under a leader, no leader has a hole
(`attended_of_leader`); otherwise it may have one for good, and go on serving (`hole_under_leader`).
-/

namespace PaxosPayments.Paxos

/-! ## What a replica keeps -/

namespace Node

variable {n n' : Node}

/-- No slot is taken back from the commitments, and a leader was one already, with the same next
slot. -/
structure Onward (n n' : Node) : Prop where
  committed : ∀ s, n.committed s = true → n'.committed s = true
  leader : n'.role = .leader → n.role = .leader ∧ n'.nextSlot = n.nextSlot

namespace Onward

theorem refl (n : Node) : Onward n n := ⟨fun _ => id, fun hl => ⟨hl, rfl⟩⟩

/-- The replica does not lead any more. -/
theorem of_role (hr : n'.role ≠ .leader) (hc : n'.committed = n.committed) : Onward n n' :=
  ⟨fun _ hs => hc ▸ hs, fun hl => absurd hl hr⟩

theorem promise (n : Node) (b : Ballot) : Onward n (n.promise b) :=
  ⟨fun _ => id, fun hl => ⟨hl, rfl⟩⟩

theorem vote (n : Node) (e : Entry) : Onward n (n.vote e) :=
  ⟨fun _ => id, fun hl => ⟨hl, rfl⟩⟩

theorem of_grows (h : n.Grows n') : Onward n n' :=
  ⟨h.committed, fun hl => ⟨(h.leader hl).1, (h.leader hl).2.2⟩⟩

end Onward

end Node

/-- A slot that is committed at a replica stays so. -/
theorem ReplicaGroup.Outcome.committed_kept {cfg : Config} {g g' : ReplicaGroup}
    {act : ReplicaGroup.Action} (ho : Outcome cfg g act g') (p : NodeID) {s : ℕ}
    (hc : (g.nodes p).committed s = true) : (g'.nodes p).committed s = true := by
  have hset : ∀ {id : NodeID} {n : Node}, g'.nodes = Function.update g.nodes id n →
      (∀ s, (g.nodes id).committed s = true → n.committed s = true) →
      (g'.nodes p).committed s = true := by
    intro id n hnodes hn
    rw [hnodes, Function.update_apply]
    split_ifs with hp
    · exact hn s (hp ▸ hc)
    · exact hc
  cases ho with
  | campaign | prepare | propose | replicate | lose => exact hset rfl fun _ => id
  | noPrepare _ hn | noReplicate _ hn | stop _ hn => exact hset rfl fun _ hs => hn.committed ▸ hs
  | heartbeat | collect | choose => exact hc
  | answer | fetch => exact hset rfl (Node.Grows.handle _ _ _ _).committed
  | apply hn => exact hset rfl (Node.Grows.applyNext hn).committed
  | win => exact hset (winCampaign_nodes ..) fun _ => id
  | commit => exact hset (continueJob_nodes ..) (Node.Grows.markCommitted _ _).committed
  | learn => exact hset rfl (Node.Grows.concludeCatchUp _ _ _ _ _).committed

/-! ## Attended slots -/

/-- The slots that a job is to replicate, now or later. -/
def Job.Covers (j : Job) (s : ℕ) : Prop :=
  match j.caller with
  | .propose => s = j.slot
  | .recovery _ maxSlot => j.slot ≤ s ∧ s ≤ maxSlot

namespace ReplicaGroup

/-- The job is about to replicate, or waits for the replies to its ACCEPT. -/
def Working (g : ReplicaGroup) (j : Job) : Prop :=
  (∃ jid, g.jobs jid = some j) ∨
    ∃ rid r entry, g.rounds rid = some r ∧ r.concluded = false ∧ r.task = .accept entry j

/-- The slot is committed at the replica, or one of its goroutines will replicate it. -/
def Attended (g : ReplicaGroup) (id : NodeID) (s : ℕ) : Prop :=
  (g.nodes id).committed s = true ∨ ∃ j, g.Working j ∧ j.owner = id ∧ j.Covers s

/-- No `replicate` of a recovery loop fails under a leader: its entry is written, and its round does
not end without a majority, unless a higher ballot was met. -/
def recoveryKept (cfg : Config) (g : ReplicaGroup) : Action → Bool
  | .replicate jid disk =>
    match g.jobs jid with
    | some ⟨id, .recovery _ _, _, _, _⟩ => (g.nodes id).role ≠ .leader || disk ≠ 0
    | _ => true
  | .conclude rid _ _ =>
    match g.pending rid with
    | some ⟨_, .accept entry ⟨id, .recovery _ _, _, _, _⟩, _, replies, _⟩ =>
      (g.nodes id).role ≠ .leader || (superseding entry.ballot replies).isSome ||
        cfg.quorum ≤ votes replies
    | _ => true
  | _ => true

variable {cfg : Config} {g g' : ReplicaGroup}

/-! ### Jobs at work -/

namespace Working

variable {j : Job}

theorem of_addJob (j : Job) : (g.addJob j).Working j := Or.inl ⟨g.fresh, Function.update_self ..⟩

/-- The recovery of a new leader. -/
theorem of_winCampaign (id : NodeID) (next : Ballot) {first : ℕ} {replies : List Message}
    (hle : first ≤ (Node.gather first (gathered (g.nodes id) first replies)).2) :
    (g.winCampaign id next first replies).Working
      ⟨id, .recovery (Node.gather first (gathered (g.nodes id) first replies)).1
        (Node.gather first (gathered (g.nodes id) first replies)).2, first,
        Node.recoveredCommand (Node.gather first (gathered (g.nodes id) first replies)).1 first,
        next⟩ := by
  unfold winCampaign
  dsimp only
  rw [if_pos hle]
  exact .of_addJob _

/-- **A job is at work until it starts its `replicate` or has come to the end of it.** -/
theorem kept (hn : Numbered g) {act : Action} (ho : Outcome cfg g act g') (h : g.Working j) :
    g'.Working j ∨ (∃ jid disk, act = .replicate jid disk ∧ g.jobs jid = some j) ∨
      ∃ rid expired disk r entry, act = .conclude rid expired disk ∧ g.pending rid = some r ∧
        r.task = .accept entry j := by
  rcases h with ⟨jid, hj⟩ | ⟨rid, r, entry, hr, hopen, ht⟩
  · rcases ho.jobs_kept hn hj with hj' | ⟨disk, hact⟩
    · exact Or.inl (Or.inl ⟨jid, hj'⟩)
    · exact Or.inr (Or.inl ⟨jid, disk, hact, hj⟩)
  · rcases ho.rounds_kept hn hr with ⟨r', hr', hcont⟩ | ⟨expired, disk, hact⟩
    · exact Or.inl (Or.inr ⟨rid, r', entry, hr', hcont.concluded ▸ hopen, hcont.task ▸ ht⟩)
    · exact Or.inr (Or.inr ⟨rid, expired, disk, r, entry, hact,
        pending_eq_some.mpr ⟨hr, hopen⟩, ht⟩)

end Working

/-! ### The end of a `replicate` -/

/-- A `replicate` that fails leaves a follower, if it does not belong to the recovery of a leader.
-/
theorem fail_follower {j : Job}
    (hrec : ∀ best maxSlot, j.caller = .recovery best maxSlot → (g.nodes j.owner).role ≠ .leader) :
    ∃ n, (g.nodes j.owner).StepsDown n ∧ n.role ≠ .leader ∧ g.fail j = g.setNode j.owner n := by
  unfold fail
  cases hc : j.caller with
  | propose =>
    refine ⟨_, Or.inr ⟨_, _, rfl⟩, ?_, rfl⟩
    rw [Node.stepDown_role]
    nofun
  | recovery best maxSlot => exact ⟨_, Or.inl rfl, hrec best maxSlot hc, (g.setNode_self _).symm⟩

theorem replicate_cases {jid disk : ℕ} (hs : g.step cfg (.replicate jid disk) = some g')
    (hok : g.recoveryKept cfg (.replicate jid disk) = true) :
    ∃ j, g.jobs jid = some j ∧
      (g' = (((g.dropJob jid).setNode j.owner
          ((g.nodes j.owner).vote ⟨j.slot, (g.nodes j.owner).ballot, j.command⟩)).issue
        ⟨j.slot, (g.nodes j.owner).ballot, j.command⟩).broadcast cfg j.owner
        (.accept ⟨j.slot, (g.nodes j.owner).ballot, j.command⟩ j) ∨
      ∃ n, (g.nodes j.owner).StepsDown n ∧ n.role ≠ .leader ∧
        g' = (g.dropJob jid).setNode j.owner n) := by
  simp only [step] at hs
  cases hj : g.jobs jid with
  | none => simp [hj] at hs
  | some j =>
    simp only [hj, Option.some.injEq] at hs
    subst hs
    refine ⟨j, rfl, ?_⟩
    unfold startReplicate
    dsimp only
    split_ifs with hl hdisk
    · exact Or.inr (fail_follower (g := g.dropJob jid) fun _ _ _ => hl)
    · refine Or.inr (fail_follower (g := g.dropJob jid) fun best maxSlot hc => ?_)
      obtain ⟨owner, caller, slot, command, under⟩ := j
      subst hc
      have hl' : (g.nodes owner).role ≠ .leader := by simpa [recoveryKept, hj, hdisk] using hok
      exact hl'
    · exact Or.inl rfl

theorem conclude_cases {rid disk : ℕ} {expired : Bool} {r : Round} {entry : Entry} {j : Job}
    (hr : g.pending rid = some r) (ht : r.task = .accept entry j)
    (hs : g.step cfg (.conclude rid expired disk) = some g')
    (hok : g.recoveryKept cfg (.conclude rid expired disk) = true) :
    g' = ((g.setRound rid r.close).setNode j.owner
        ((g.nodes j.owner).markCommitted [entry.slot])).continueJob j ∨
      ∃ n, (g.nodes j.owner).StepsDown n ∧ n.role ≠ .leader ∧
        g' = (g.setRound rid r.close).setNode j.owner n := by
  simp only [step, conclude, hr, ht, Option.some.injEq] at hs
  subst hs
  unfold concludeReplicate
  split
  · rename_i m hm
    refine Or.inr ⟨(g.nodes j.owner).stepDown m.ballot disk, Or.inr ⟨_, _, rfl⟩, ?_, ?_⟩
    · rw [Node.stepDown_role]
      intro hrole
      cases hrole
    · unfold fail
      cases j.caller with
      | propose =>
        dsimp only
        rw [setNode_demote, Node.stepDown_stepDown]
        rfl
      | recovery best maxSlot => rfl
  · rename_i hsup
    split_ifs with hq
    · refine Or.inr (fail_follower (g := g.setRound rid r.close) fun best maxSlot hc => ?_)
      obtain ⟨owner, task, rpc, replies, concluded⟩ := r
      obtain ⟨id, caller, slot, command, under⟩ := j
      subst ht hc
      simpa [recoveryKept, hr, hsup, not_le.mpr hq] using hok
    · exact Or.inl rfl

end ReplicaGroup

open ReplicaGroup

/-! ## The invariant -/

/-- The slots that a campaign does not recover are committed; an ACCEPT is for the slot of its
job. -/
def Round.Started (nodes : NodeID → Node) (r : Round) : Prop :=
  match r.task with
  | .prepare _ first => ∀ s, 1 ≤ s → s < first → (nodes r.owner).committed s = true
  | .accept entry j => entry.slot = j.slot
  | _ => True

/-- Every slot under a leader is attended. Those up to `appliedIndex` are committed, and stay so
when the index wraps. -/
structure Tended (g : ReplicaGroup) : Prop where
  numbered : Numbered g
  upTo : ∀ id s, 1 ≤ s → s ≤ (g.nodes id).appliedIndex → (g.nodes id).committed s = true
  started : ∀ rid r, g.rounds rid = some r → r.Started g.nodes
  slots : ∀ id s, 1 ≤ s → s < 2 ^ 64 → (g.nodes id).role = .leader → s < (g.nodes id).nextSlot →
    g.Attended id s

namespace Tended

variable {cfg : Config} {g g' : ReplicaGroup}

theorem init : Tended ReplicaGroup.init where
  numbered := .init
  upTo id s h₁ h₂ := by
    simp only [ReplicaGroup.init, Node.fresh, Nat.le_zero] at h₂
    omega
  started := by simp [ReplicaGroup.init]
  slots := by simp [ReplicaGroup.init, Node.fresh]

theorem committed_below (h : Tended g) {rid : ℕ} {r : Round} {next : Ballot} {first : ℕ}
    (hr : g.pending rid = some r) (ht : r.task = .prepare next first) :
    ∀ s, 1 ≤ s → s < first → (g.nodes r.owner).committed s = true := by
  have hstart := h.started rid r (pending_eq_some.mp hr).1
  rw [Round.Started, ht] at hstart
  exact hstart

theorem slot_eq (h : Tended g) {rid : ℕ} {r : Round} {entry : Entry} {j : Job}
    (hr : g.pending rid = some r) (ht : r.task = .accept entry j) : entry.slot = j.slot := by
  have hstart := h.started rid r (pending_eq_some.mp hr).1
  rw [Round.Started, ht] at hstart
  exact hstart

/-- What is applied after a step is committed. -/
theorem upTo_step (h : Tended g) {act : Action} (ho : Outcome cfg g act g') :
    ∀ id s, 1 ≤ s → s ≤ (g'.nodes id).appliedIndex → (g'.nodes id).committed s = true := by
  intro id s h₁ h₂
  apply ho.committed_kept id
  rcases ho.applied id with hsame | ⟨-, hn⟩
  · exact h.upTo id s h₁ (hsame.index ▸ h₂)
  · obtain ⟨e, -, hi, -⟩ := Node.applyNext_applied hn
    rw [hi] at h₂
    rcases h₂.eq_or_lt with rfl | hlt
    · exact Node.committed_of_applyNext hn
    · exact h.upTo id s h₁ (Nat.lt_succ_iff.mp (hlt.trans_le (uint64Succ_le _)))

/-- The rounds after any step. -/
theorem started_step (h : Tended g) {act : Action} (ho : Outcome cfg g act g') :
    ∀ rid r, g'.rounds rid = some r → r.Started g'.nodes := by
  intro rid r' hr'
  unfold Round.Started
  rcases ho.rounds_origin hr' with ⟨r, hr, howner, htask⟩ | hopened
  · have hstart := h.started rid r hr
    rw [Round.Started, ← htask, ← howner] at hstart
    generalize r'.task = task at hstart ⊢
    cases task with
    | prepare next first => exact fun s h₁ h₂ => ho.committed_kept _ (hstart s h₁ h₂)
    | accept | probe | heartbeat | catchUp => exact hstart
  · generalize r'.task = task at hopened ⊢
    cases task with
    | prepare next first =>
      intro s h₁ h₂
      rw [hopened] at h₂
      exact ho.committed_kept _
        (h.upTo _ s h₁ (Nat.lt_succ_iff.mp (h₂.trans_le (uint64Succ_le _))))
    | accept entry j => exact hopened.2 ▸ rfl
    | probe | heartbeat | catchUp => trivial

/-- A replica that goes on as before, when its jobs do. -/
theorem slots_next (h : Tended g) {id : NodeID} (hon : (g.nodes id).Onward (g'.nodes id))
    (hwork : ∀ j, g.Working j → j.owner = id → (g'.nodes id).role = .leader →
      ∀ s < 2 ^ 64, j.Covers s → g'.Attended id s) :
    ∀ s, 1 ≤ s → s < 2 ^ 64 → (g'.nodes id).role = .leader → s < (g'.nodes id).nextSlot →
      g'.Attended id s := by
  intro s hpos hs hl hn
  obtain ⟨hl₀, hnext⟩ := hon.leader hl
  rcases h.slots id s hpos hs hl₀ (hnext ▸ hn) with hc | ⟨j, hj, ho, hcov⟩
  · exact Or.inl (hon.committed s hc)
  · exact hwork j hj ho hl s hs hcov

/-- A step that ends the work of no job of a leader. -/
theorem next (h : Tended g) {act : Action} (ho : Outcome cfg g act g')
    (hon : ∀ id, (g.nodes id).Onward (g'.nodes id))
    (hwork : ∀ j, g.Working j → (g'.nodes j.owner).role = .leader → g'.Working j) : Tended g' :=
  ⟨h.numbered.step ho, h.upTo_step ho, h.started_step ho, fun id =>
    h.slots_next (hon id) fun j hj hid hl _ _ hcov =>
      Or.inr ⟨j, hwork j hj (hid ▸ hl), hid, hcov⟩⟩

/-- A step that changes one replica. -/
theorem onward_update {id : NodeID} {n : Node} (hnodes : g'.nodes = Function.update g.nodes id n)
    (hn : (g.nodes id).Onward n) (p : NodeID) : (g.nodes p).Onward (g'.nodes p) := by
  rw [hnodes, Function.update_apply]
  split_ifs with hp
  · exact hp ▸ hn
  · exact .refl _

/-- A recovery that has committed its slot goes on with the next one. -/
theorem commit (h : Tended g) {rid disk : ℕ} {expired : Bool} {r : Round} {entry : Entry} {j : Job}
    (hr : g.pending rid = some r) (ht : r.task = .accept entry j)
    (hg' : g' = ((g.setRound rid r.close).setNode j.owner
      ((g.nodes j.owner).markCommitted [entry.slot])).continueJob j)
    (ho : Outcome cfg g (.conclude rid expired disk) g') : Tended g' := by
  have hnodes : g'.nodes = Function.update g.nodes j.owner
      ((g.nodes j.owner).markCommitted [entry.slot]) := by
    rw [hg', continueJob_nodes]
    rfl
  have hon := onward_update hnodes (.of_grows (.markCommitted _ _))
  have hdone : (g'.nodes j.owner).committed j.slot = true := by
    simp [hnodes, Node.markCommitted, h.slot_eq hr ht]
  refine ⟨h.numbered.step ho, h.upTo_step ho, h.started_step ho, fun id =>
    h.slots_next (hon id) fun j' hj' hid _ s hs hcov => ?_⟩
  rcases hj'.kept h.numbered ho with hj' | ⟨_, _, hact, -⟩ | ⟨_, _, _, r', entry', hact, hr', ht'⟩
  · exact Or.inr ⟨j', hj', hid, hcov⟩
  · cases hact
  -- the job that waited for this round: its slot is committed, the rest is still to come
  obtain ⟨rfl, rfl, rfl⟩ := Action.conclude.inj hact
  obtain rfl : r' = r := Option.some.inj (hr'.symm.trans hr)
  obtain ⟨rfl, rfl⟩ := Task.accept.inj (ht.symm.trans ht')
  subst hid
  unfold Job.Covers at hcov
  cases hc : j.caller with
  | propose =>
    rw [hc] at hcov
    exact Or.inl (hcov ▸ hdone)
  | recovery best maxSlot =>
    rw [hc] at hcov
    obtain ⟨hle, hmax⟩ := hcov
    rcases hle.eq_or_lt with rfl | hlt
    · exact Or.inl hdone
    · have hsucc : uint64Succ j.slot = j.slot + 1 := uint64Succ_of_lt (by omega)
      have hgo : uint64Succ j.slot ≤ maxSlot := by omega
      refine Or.inr ⟨{ j with
        slot := uint64Succ j.slot
        command := Node.recoveredCommand best (uint64Succ j.slot) }, ?_, rfl, ?_⟩
      · rw [hg', continueJob, hc]
        dsimp only
        rw [if_pos hgo]
        exact .of_addJob _
      · simp only [Job.Covers, hc]
        omega

/-- A new leader recovers all slots below the first one that it will hand out. -/
theorem win (h : Tended g) {rid disk first : ℕ} {expired : Bool} {r : Round} {next : Ballot}
    (hr : g.pending rid = some r) (ht : r.task = .prepare next first)
    (hg' : g' = (g.setRound rid r.close).winCampaign r.owner next first r.replies)
    (ho : Outcome cfg g (.conclude rid expired disk) g') : Tended g' := by
  have hbelow := h.committed_below hr ht
  have hwork : ∀ j, g.Working j → g'.Working j := by
    intro j hj
    rcases hj.kept h.numbered ho with hj' | ⟨_, _, hact, -⟩ | ⟨_, _, _, r', _, hact, hr', ht'⟩
    · exact hj'
    · cases hact
    · obtain ⟨rfl, rfl, rfl⟩ := Action.conclude.inj hact
      obtain rfl : r' = r := Option.some.inj (hr'.symm.trans hr)
      simp [ht] at ht'
  refine ⟨h.numbered.step ho, h.upTo_step ho, h.started_step ho, fun p => ?_⟩
  by_cases hp : p = r.owner
  · subst hp
    intro s hpos hs _ hn
    rcases Nat.lt_or_ge s first with hlt | hge
    · exact Or.inl (ho.committed_kept _ (hbelow s hpos hlt))
    rw [hg'] at hn ⊢
    simp only [winCampaign_nodes, ReplicaGroup.setNode, setRound_nodes, Function.update_self,
      Node.becomeLeader] at hn
    set maxSlot := (Node.gather first (gathered (g.nodes r.owner) first r.replies)).2
    have hsucc := uint64Succ_le maxSlot
    have hrange : first ≤ s ∧ s ≤ maxSlot := by
      change s < if uint64Succ maxSlot < first then first else uint64Succ maxSlot at hn
      split_ifs at hn <;> omega
    exact Or.inr ⟨_, Working.of_winCampaign (g := g.setRound rid r.close) r.owner next
      (hrange.1.trans hrange.2), rfl, hrange⟩
  · have hon : (g.nodes p).Onward (g'.nodes p) := by
      rw [hg']
      simp only [winCampaign_nodes, ReplicaGroup.setNode, Function.update_of_ne hp]
      exact .refl _
    exact h.slots_next hon fun j hj hid _ s _ hcov => Or.inr ⟨j, hwork j hj, hid, hcov⟩

/-- The slot that is handed out is the work of its `Propose`. -/
theorem propose (h : Tended g) {id : NodeID} {command : Command}
    (hg' : g' = ((g.setNode id
        { g.nodes id with nextSlot := uint64Succ (g.nodes id).nextSlot }).assign
      [⟨(g.nodes id).nextSlot, (g.nodes id).ballot, command⟩]).addJob
      ⟨id, .propose, (g.nodes id).nextSlot, command, (g.nodes id).ballot⟩)
    (hl : (g.nodes id).role = .leader) (ho : Outcome cfg g (.propose id command) g') :
    Tended g' := by
  have hnodes : g'.nodes = Function.update g.nodes id
      { g.nodes id with nextSlot := uint64Succ (g.nodes id).nextSlot } := by
    rw [hg']
    rfl
  have hwork : ∀ j, g.Working j → g'.Working j := by
    intro j hj
    rcases hj.kept h.numbered ho with hj' | ⟨_, _, hact, -⟩ | ⟨_, _, _, _, _, hact, -⟩
    · exact hj'
    · cases hact
    · cases hact
  refine ⟨h.numbered.step ho, h.upTo_step ho, h.started_step ho, fun p => ?_⟩
  by_cases hp : p = id
  · subst hp
    intro s hpos hs _ hn
    have hsucc := uint64Succ_le (g.nodes p).nextSlot
    have hlt : s < uint64Succ (g.nodes p).nextSlot := by simpa [hnodes] using hn
    rcases (by omega : s ≤ (g.nodes p).nextSlot).eq_or_lt with rfl | hold
    · rw [hg']
      exact Or.inr ⟨_, .of_addJob _, rfl, rfl⟩
    · rcases h.slots p s hpos hs hl hold with hc | ⟨j, hj, hrest⟩
      · exact Or.inl (by simpa [hnodes] using hc)
      · exact Or.inr ⟨j, hwork j hj, hrest⟩
  · have hon : (g.nodes p).Onward (g'.nodes p) := by
      rw [hnodes, Function.update_of_ne hp]
      exact .refl _
    exact h.slots_next hon fun j hj hid _ s _ hcov => Or.inr ⟨j, hwork j hj, hid, hcov⟩

theorem replicate (h : Tended g) {jid disk : ℕ}
    (hok : g.recoveryKept cfg (.replicate jid disk) = true)
    (hs : g.step cfg (.replicate jid disk) = some g') : Tended g' := by
  have ho := Outcome.of_step hs
  obtain ⟨j, hj, hcases⟩ := replicate_cases hs hok
  have hkept : ∀ j', g.Working j' → g'.Working j' ∨ j' = j := by
    intro j' hj'
    rcases hj'.kept h.numbered ho with hj' | ⟨_, _, hact, hjob⟩ | ⟨_, _, _, _, _, hact, -⟩
    · exact Or.inl hj'
    · obtain ⟨rfl, rfl⟩ := Action.replicate.inj hact
      exact Or.inr (Option.some.inj (hjob.symm.trans hj))
    · cases hact
  rcases hcases with hg' | ⟨n, hn, hrole, hg'⟩
  · have hnodes : g'.nodes = Function.update g.nodes j.owner
        ((g.nodes j.owner).vote ⟨j.slot, (g.nodes j.owner).ballot, j.command⟩) := by
      rw [hg']
      rfl
    refine h.next ho (onward_update hnodes (.vote _ _)) fun j' hj' _ => ?_
    rcases hkept j' hj' with hj' | rfl
    · exact hj'
    · rw [hg']
      exact Or.inr ⟨_, _, _, Function.update_self .., rfl, rfl⟩
  · have hnodes : g'.nodes = Function.update g.nodes j.owner n := by
      rw [hg']
      rfl
    refine h.next ho (onward_update hnodes (.of_grows (.stepsDown hn))) fun j' hj' hl => ?_
    rcases hkept j' hj' with hj' | rfl
    · exact hj'
    · simp [hnodes, hrole] at hl

/-- The end of a `replicate`. -/
theorem concluded (h : Tended g) {rid disk : ℕ} {expired : Bool} {r : Round} {entry : Entry}
    {j : Job} (hr : g.pending rid = some r) (ht : r.task = .accept entry j)
    (hok : g.recoveryKept cfg (.conclude rid expired disk) = true)
    (hs : g.step cfg (.conclude rid expired disk) = some g') : Tended g' := by
  have ho := Outcome.of_step hs
  rcases conclude_cases hr ht hs hok with hg' | ⟨n, hn, hrole, hg'⟩
  · exact h.commit hr ht hg' ho
  have hnodes : g'.nodes = Function.update g.nodes j.owner n := by
    rw [hg']
    rfl
  refine h.next ho (onward_update hnodes (.of_grows (.stepsDown hn))) fun j' hj' hl => ?_
  rcases hj'.kept h.numbered ho with hj' | ⟨_, _, hact, -⟩ | ⟨_, _, _, r', _, hact, hr', ht'⟩
  · exact hj'
  · cases hact
  · obtain ⟨rfl, rfl, rfl⟩ := Action.conclude.inj hact
    obtain rfl : r' = r := Option.some.inj (hr'.symm.trans hr)
    obtain ⟨-, rfl⟩ := Task.accept.inj (ht.symm.trans ht')
    simp [hnodes, hrole] at hl

/-- The end of a round other than that of an ACCEPT. -/
theorem closed (h : Tended g) {rid disk : ℕ} {expired : Bool} {r : Round} {id : NodeID} {n : Node}
    (hr : g.pending rid = some r) (ht : ∀ entry j, r.task ≠ .accept entry j)
    (hnodes : g'.nodes = Function.update g.nodes id n) (hn : (g.nodes id).Onward n)
    (ho : Outcome cfg g (.conclude rid expired disk) g') : Tended g' := by
  refine h.next ho (onward_update hnodes hn) fun j hj _ => ?_
  rcases hj.kept h.numbered ho with hj | ⟨_, _, hact, -⟩ | ⟨_, _, _, r', entry, hact, hr', ht'⟩
  · exact hj
  · cases hact
  · obtain ⟨rfl, rfl, rfl⟩ := Action.conclude.inj hact
    obtain rfl : r' = r := Option.some.inj (hr'.symm.trans hr)
    exact absurd ht' (ht entry j)

/-- A step in which no job starts or ends. -/
theorem quiet (h : Tended g) {act : Action} (ho : Outcome cfg g act g')
    (hon : ∀ id, (g.nodes id).Onward (g'.nodes id)) (hrep : ∀ jid disk, act ≠ .replicate jid disk)
    (hcon : ∀ rid expired disk, act ≠ .conclude rid expired disk) : Tended g' := by
  refine h.next ho hon fun j hj _ => ?_
  rcases hj.kept h.numbered ho with hj | ⟨jid, disk, hact, -⟩ | ⟨rid, expired, disk, _, _, hact, -⟩
  · exact hj
  · exact absurd hact (hrep jid disk)
  · exact absurd hact (hcon rid expired disk)

/-- **Every step keeps the slots of leaders attended**, when no recovery fails under a leader. -/
theorem step (h : Tended g) {a : Action} (hok : g.recoveryKept cfg a = true)
    (hs : g.step cfg a = some g') : Tended g' := by
  have ho := Outcome.of_step hs
  cases Outcome.of_step hs with
  | campaign =>
    exact h.quiet ho (onward_update rfl (.of_role (by simp) rfl)) (by simp) (by simp)
  | prepare => exact h.quiet ho (onward_update rfl (.promise _ _)) (by simp) (by simp)
  | noPrepare _ hn =>
    exact h.quiet ho (onward_update rfl (.of_grows (.stepsDown hn))) (by simp) (by simp)
  | propose _ hl => exact h.propose rfl hl ho
  | replicate | noReplicate => exact h.replicate hok hs
  | heartbeat | collect => exact h.quiet ho (fun _ => .refl _) (by simp) (by simp)
  | apply hn =>
    exact h.quiet ho (onward_update rfl (.of_grows (.applyNext hn))) (by simp) (by simp)
  | answer | fetch =>
    exact h.quiet ho (onward_update rfl (.of_grows (.handle _ _ _ _))) (by simp) (by simp)
  | @stop rid disk expired r id n hr hn =>
    by_cases hacc : ∃ entry j, r.task = .accept entry j
    · obtain ⟨entry, j, ht⟩ := hacc
      exact h.concluded hr ht hok hs
    · push Not at hacc
      exact h.closed hr hacc rfl (.of_grows (.stepsDown hn)) ho
  | choose hr ht =>
    exact h.closed hr (by simp [ht]) (Function.update_eq_self "" _).symm (.refl _) ho
  | lose hr ht => exact h.closed hr (by simp [ht]) rfl (.of_role (by simp) rfl) ho
  | win hr ht => exact h.win hr ht rfl ho
  | commit hr ht => exact h.commit hr ht rfl ho
  | learn hr ht =>
    exact h.closed hr (by simp [ht]) rfl (.of_grows (.concludeCatchUp _ _ _ _ _)) ho

end Tended

namespace ReplicaGroup

variable {cfg : Config} {g : ReplicaGroup} {acts : List Action}

/-- **No hole under a leader.** A slot (a 64-bit number) above the applied ones and below the next
one to be handed out is committed, or one of the leader's goroutines is at it. -/
theorem attended_of_leader (hrun : Run (step cfg) (recoveryKept cfg) init acts g) {id : NodeID}
    {s : ℕ} (hs : s < 2 ^ 64) (hl : (g.nodes id).role = .leader)
    (ha : (g.nodes id).appliedIndex < s) (hn : s < (g.nodes id).nextSlot) : g.Attended id s :=
  (hrun.invariant (I := Tended) (fun _ _ _ h hok hs => h.step hok hs) .init).slots id s
    (Nat.one_le_of_lt ha) hs hl hn

/-- `A` is elected and proposes, but nobody answers, and `A` steps down. It is elected again, with
the slot to recover. -/
def recoveringElection : List Action :=
  election "A" ["B"] 0 ++ [.propose "A" [120], .replicate 3 1, .conclude 4 false 1] ++
    election "A" ["B"] 5

theorem attended_of_leader_recovering :
    ∃ g, Run (step threeReplicas) (recoveryKept threeReplicas) init
        (recoveringElection ++ proposal "A" ["B"] 9 [121]) g ∧
      ((g.nodes "A").role, (g.nodes "A").appliedIndex, (g.nodes "A").nextSlot) =
        (.leader, 0, 3) ∧ (g.nodes "A").committed 1 = false ∧ g.Attended "A" 1 := by
  obtain ⟨g, hrun, h⟩ := Run.exists_of_exec_map (step threeReplicas) (recoveryKept threeReplicas)
    init (recoveringElection ++ proposal "A" ["B"] 9 [121])
    (fun g => (((g.nodes "A").role, (g.nodes "A").appliedIndex, (g.nodes "A").nextSlot),
      (g.nodes "A").committed 1)) ((.leader, 0, 3), false) (by decide +kernel)
  simp only [Prod.mk.injEq] at h
  obtain ⟨⟨hl, ha, hn⟩, hc⟩ := h
  exact ⟨g, hrun, by simp [hl, ha, hn], hc, attended_of_leader hrun (by decide) hl (by omega)
    (by omega)⟩

/-- No job is at work. -/
def idle (g : ReplicaGroup) : Bool :=
  (List.range g.fresh).all fun k => (g.jobs k).isNone &&
    match g.rounds k with
    | some ⟨_, .accept _ _, _, _, concluded⟩ => concluded
    | _ => true

theorem not_working_of_idle (hnum : Numbered g) (h : g.idle = true) (j : Job) : ¬g.Working j := by
  rw [idle, List.all_eq_true] at h
  rintro (⟨jid, hj⟩ | ⟨rid, r, entry, hr, hopen, ht⟩)
  · have hlt : jid < g.fresh := by
      by_contra hge
      simp [hnum.jobs jid (not_lt.mp hge)] at hj
    simpa [hj] using h jid (List.mem_range.mpr hlt)
  · have hlt : rid < g.fresh := by
      by_contra hge
      simp [hnum.rounds rid (not_lt.mp hge)] at hr
    obtain ⟨owner, task, rpc, replies, concluded⟩ := r
    subst ht hopen
    simpa [hr] using h rid (List.mem_range.mpr hlt)

/-- The recovery of slot 1 finds no majority and ends. `A` goes on as leader: slot 2 is committed,
but it will not be applied, because nobody is at slot 1. -/
theorem hole_under_leader :
    ∃ g, Run (step threeReplicas) always init
        (recoveringElection ++ [.replicate 8 1, .conclude 9 false 1] ++
          proposal "A" ["B"] 10 [121]) g ∧
      ((g.nodes "A").role, (g.nodes "A").appliedIndex, (g.nodes "A").nextSlot) =
        (.leader, 0, 3) ∧ (g.nodes "A").committed 2 = true ∧ ¬g.Attended "A" 1 := by
  obtain ⟨g, hrun, h⟩ := Run.exists_of_exec_map (step threeReplicas) always init
    (recoveringElection ++ [.replicate 8 1, .conclude 9 false 1] ++ proposal "A" ["B"] 10 [121])
    (fun g => (((g.nodes "A").role, (g.nodes "A").appliedIndex, (g.nodes "A").nextSlot),
      (g.nodes "A").committed 2, (g.nodes "A").committed 1, g.idle))
    ((.leader, 0, 3), true, false, true) (by decide +kernel)
  simp only [Prod.mk.injEq] at h
  obtain ⟨⟨hl, ha, hn⟩, hc₂, hc₁, hidle⟩ := h
  have hnum : Numbered g :=
    hrun.invariant (fun _ _ _ h _ hs => h.step (Outcome.of_step hs)) .init
  refine ⟨g, hrun, by simp [hl, ha, hn], hc₂, ?_⟩
  rintro (hc | ⟨j, hj, -⟩)
  · simp [hc₁] at hc
  · exact not_working_of_idle hnum hidle j hj

end ReplicaGroup

end PaxosPayments.Paxos
