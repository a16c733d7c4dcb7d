import PaxosPayments.Paxos.Promises

/-!
# One command for a slot and a ballot

A slot is given its command under a ballot twice in the code: by `Propose`, when it hands the slot
out, and by `becomeLeader`, when it recovers what the group had accepted. `Assign` says that this
makes at most one command for each slot and ballot: the ballots of the campaigns of a group are
distinct, and a leader hands out a slot only once under one ballot.

The ballot of an ACCEPT, however, is read later, at the start of `replicate`. So two ACCEPTs for the
same slot and ballot carry the same command in the runs in which a replica is not elected again
between the two (`issued_command_unique`), and may differ otherwise: `issued_two_commands` is a run
of three replicas.
-/

namespace PaxosPayments.Paxos

namespace ReplicaGroup

variable {cfg : Config} {g g' : ReplicaGroup}

/-! ## Open campaigns and running jobs -/

/-- The round `rid` is an open campaign of `owner` with ballot `next`. -/
def Campaigns (g : ReplicaGroup) (rid : ℕ) (owner : NodeID) (next : Ballot) : Prop :=
  ∃ r first, g.rounds rid = some r ∧ r.concluded = false ∧ r.owner = owner ∧
    r.task = .prepare next first

/-- The job `j` is about to replicate, or waits for the replies to its ACCEPT. -/
def HasJob (g : ReplicaGroup) (j : Job) : Prop :=
  (∃ jid, g.jobs jid = some j) ∨ ∃ rid r entry, g.rounds rid = some r ∧ r.task = .accept entry j

section Updates

variable {rid rid' : ℕ} {r r' : Round} {owner o : NodeID} {next : Ballot} {targets : List NodeID}
  {task : Task} {j j' : Job}

/-- Progress within a round starts no campaign. -/
theorem Campaigns.of_setRound (hr : g.rounds rid = some r) (howner : r'.owner = r.owner)
    (htask : r'.task = r.task) (hopen : r'.concluded = false → r.concluded = false)
    (h : Campaigns (g.setRound rid r') rid' o next) : Campaigns g rid' o next := by
  obtain ⟨r'', first, hr'', hc, ho, ht⟩ := h
  rcases setRound_eq_some hr'' with ⟨rfl, rfl⟩ | ⟨-, hold⟩
  · exact ⟨r, first, hr, hopen hc, howner ▸ ho, htask ▸ ht⟩
  · exact ⟨r'', first, hold, hc, ho, ht⟩

/-- A round that is closed is an open campaign no more. -/
theorem Campaigns.of_close (h : Campaigns (g.setRound rid r.close) rid' o next) :
    rid' ≠ rid ∧ Campaigns g rid' o next := by
  obtain ⟨r'', first, hr'', hc, ho, ht⟩ := h
  rcases setRound_eq_some hr'' with ⟨rfl, rfl⟩ | ⟨hne, hold⟩
  · simp [Round.close] at hc
  · exact ⟨hne, r'', first, hold, hc, ho, ht⟩

theorem Campaigns.of_openRound (h : Campaigns (g.openRound owner targets task) rid' o next) :
    Campaigns g rid' o next ∨ rid' = g.fresh ∧ o = owner ∧ ∃ first, task = .prepare next first := by
  obtain ⟨r'', first, hr'', hc, ho, ht⟩ := h
  rcases setRound_eq_some hr'' with ⟨rfl, rfl⟩ | ⟨-, hold⟩
  · exact Or.inr ⟨rfl, ho.symm, first, ht⟩
  · exact Or.inl ⟨r'', first, hold, hc, ho, ht⟩

theorem HasJob.of_setRound (hr : g.rounds rid = some r) (htask : r'.task = r.task)
    (h : HasJob (g.setRound rid r') j) : HasJob g j := by
  rcases h with h | ⟨rid', r'', entry, hr'', ht⟩
  · exact Or.inl h
  rcases setRound_eq_some hr'' with ⟨rfl, rfl⟩ | ⟨-, hold⟩
  · exact Or.inr ⟨rid', r, entry, hr, htask ▸ ht⟩
  · exact Or.inr ⟨rid', r'', entry, hold, ht⟩

theorem HasJob.of_openRound (h : HasJob (g.openRound owner targets task) j) :
    HasJob g j ∨ ∃ entry, task = .accept entry j := by
  rcases h with h | ⟨rid', r'', entry, hr'', ht⟩
  · exact Or.inl (Or.inl h)
  rcases setRound_eq_some hr'' with ⟨rfl, rfl⟩ | ⟨-, hold⟩
  · exact Or.inr ⟨entry, ht⟩
  · exact Or.inl (Or.inr ⟨rid', r'', entry, hold, ht⟩)

theorem HasJob.of_addJob (h : HasJob (g.addJob j') j) : HasJob g j ∨ j = j' := by
  rcases h with ⟨jid, hj⟩ | h
  · simp only [addJob, Function.update_apply] at hj
    split_ifs at hj
    · exact Or.inr (Option.some.inj hj).symm
    · exact Or.inl (Or.inl ⟨jid, hj⟩)
  · exact Or.inl (Or.inr h)

theorem HasJob.of_dropJob {jid : ℕ} (h : HasJob (g.dropJob jid) j) : HasJob g j := by
  rcases h with ⟨jid', hj⟩ | h
  · simp only [dropJob, Function.update_apply] at hj
    split_ifs at hj
    exact Or.inl ⟨jid', hj⟩
  · exact Or.inr h

end Updates

end ReplicaGroup

open ReplicaGroup

/-! ## The invariant -/

/-- What a job is to replicate was assigned to its slot; for a recovery, all that is still to come.
-/
structure Job.Assigned (assigned : List Entry) (j : Job) : Prop where
  entry : ⟨j.slot, j.under, j.command⟩ ∈ assigned
  rest : ∀ best maxSlot, j.caller = .recovery best maxSlot →
    maxSlot + 1 < 2 ^ 64 ∧ j.slot ≤ maxSlot ∧
      ∀ s, j.slot ≤ s → s ≤ maxSlot → ⟨s, j.under, Node.recoveredCommand best s⟩ ∈ assigned

theorem Job.Assigned.mono {assigned assigned' : List Entry} {j : Job} (h : j.Assigned assigned)
    (hsub : assigned ⊆ assigned') : j.Assigned assigned' := by
  refine ⟨hsub h.entry, fun best maxSlot hc => ?_⟩
  obtain ⟨h₁, h₂, h₃⟩ := h.rest best maxSlot hc
  exact ⟨h₁, h₂, fun s hs hs' => hsub (h₃ s hs hs')⟩

/-- The ballot of a leader is its own, and its slots lie below the next one. -/
structure Node.Leads (id : NodeID) (n : Node) (assigned : List Entry) : Prop where
  own : n.ballot.node = id
  reached : n.ballot ≤ n.log.promised
  slots : ∀ e ∈ assigned, e.ballot = n.ballot → e.slot < n.nextSlot

/-- The ballot of an open campaign is the campaign's alone. -/
structure Node.RunsFor (owner : NodeID) (n : Node) (assigned : List Entry) (next : Ballot) :
    Prop where
  own : next.node = owner
  reached : next ≤ n.log.promised
  unused : ∀ e ∈ assigned, e.ballot ≠ next
  unled : n.role = .leader → n.ballot ≠ next

/-- Every slot has at most one command under a ballot, the last slot is not used, and what is sent
was assigned. -/
structure Assign (g : ReplicaGroup) : Prop where
  unique : ∀ e ∈ g.assigned, ∀ e' ∈ g.assigned, e.slot = e'.slot → e.ballot = e'.ballot →
    e.command = e'.command
  few : ∀ e ∈ g.assigned, e.slot + 1 < 2 ^ 64
  reached : ∀ e ∈ g.assigned, e.ballot ≤ (g.nodes e.ballot.node).log.promised
  issued : g.issued ⊆ g.assigned
  leader : ∀ a, (g.nodes a).role = .leader → (g.nodes a).Leads a g.assigned
  campaign : ∀ rid o next, Campaigns g rid o next → (g.nodes o).RunsFor o g.assigned next
  campaigns : ∀ rid rid' o o' next, Campaigns g rid o next → Campaigns g rid' o' next → rid = rid'
  candidacy : ∀ cid c, g.candidacies cid = some c → c.next.node = c.owner
  jobs : ∀ j, HasJob g j → j.Assigned g.assigned

namespace Assign

variable {cfg : Config} {g g' : ReplicaGroup}

theorem init : Assign ReplicaGroup.init where
  unique := by simp [ReplicaGroup.init]
  few := by simp [ReplicaGroup.init]
  reached := by simp [ReplicaGroup.init]
  issued := by simp [ReplicaGroup.init]
  leader := by simp [ReplicaGroup.init, Node.fresh]
  campaign := by simp [ReplicaGroup.init, Campaigns]
  campaigns := by simp [ReplicaGroup.init, Campaigns]
  candidacy := by simp [ReplicaGroup.init]
  jobs := by simp [ReplicaGroup.init, HasJob]

/-- A change that assigns nothing, elects nobody and starts no campaign. -/
theorem quiet (h : Assign g) (hnodes : ∀ a, (g.nodes a).Keeps (g'.nodes a))
    (hassigned : g'.assigned = g.assigned) (hissued : g'.issued ⊆ g'.assigned)
    (hcamp : ∀ rid o next, Campaigns g' rid o next → Campaigns g rid o next)
    (hcand : ∀ cid c, g'.candidacies cid = some c → c.next.node = c.owner)
    (hjobs : ∀ j, HasJob g' j → j.Assigned g.assigned) : Assign g' where
  unique := hassigned ▸ h.unique
  few := hassigned ▸ h.few
  reached e he := by
    rw [hassigned] at he
    exact (h.reached e he).trans (hnodes _).promised
  issued := hissued
  leader a hl := by
    obtain ⟨hl', hb, hs⟩ := (hnodes a).leader hl
    obtain ⟨h₁, h₂, h₃⟩ := h.leader a hl'
    refine ⟨hb ▸ h₁, ?_, ?_⟩
    · rw [hb]
      exact h₂.trans (hnodes a).promised
    · rw [hassigned, hb, hs]
      exact h₃
  campaign rid o next hc := by
    obtain ⟨h₁, h₂, h₃, h₄⟩ := h.campaign rid o next (hcamp _ _ _ hc)
    refine ⟨h₁, h₂.trans (hnodes o).promised, hassigned ▸ h₃, fun hl => ?_⟩
    obtain ⟨hl', hb, -⟩ := (hnodes o).leader hl
    rw [hb]
    exact h₄ hl'
  campaigns rid rid' o o' next hc hc' :=
    h.campaigns rid rid' o o' next (hcamp _ _ _ hc) (hcamp _ _ _ hc')
  candidacy := hcand
  jobs j hj := hassigned ▸ hjobs j hj

theorem setNode (h : Assign g) {id : NodeID} {n : Node} (hn : (g.nodes id).Keeps n) :
    Assign (g.setNode id n) := by
  refine h.quiet (fun a => ?_) rfl h.issued (fun _ _ _ hc => hc) h.candidacy h.jobs
  by_cases ha : a = id
  · subst ha
    simpa [ReplicaGroup.setNode] using hn
  · simpa [ReplicaGroup.setNode, ha] using Node.Keeps.refl _

/-- Progress within a round. -/
theorem setRound (h : Assign g) {rid : ℕ} {r r' : Round} (hr : g.rounds rid = some r)
    (howner : r'.owner = r.owner) (htask : r'.task = r.task)
    (hopen : r'.concluded = false → r.concluded = false) : Assign (g.setRound rid r') :=
  h.quiet (fun _ => .refl _) rfl h.issued (fun _ _ _ => .of_setRound hr howner htask hopen)
    h.candidacy fun j hj => h.jobs j (hj.of_setRound hr htask)

theorem close (h : Assign g) {rid : ℕ} {r : Round} (hr : g.pending rid = some r) :
    Assign (g.setRound rid r.close) :=
  h.setRound (pending_eq_some.mp hr).1 rfl rfl (by simp [Round.close])

theorem answer (h : Assign g) {rid disk : ℕ} {p : NodeID} {r : Round}
    (hr : g.rounds rid = some r) :
    Assign ((g.setNode p ((g.nodes p).handle p (r.task.request r.owner) disk).1).setRound rid
      (r.answer p ((g.nodes p).handle p (r.task.request r.owner) disk).2.1)) :=
  setRound (h.setNode (Node.Grows.handle _ _ _ _).toKeeps) hr rfl rfl id

/-- A round that is no campaign. -/
theorem openRound (h : Assign g) {owner : NodeID} {targets : List NodeID} {task : Task}
    (hprep : ∀ next first, task ≠ .prepare next first)
    (hacc : ∀ entry j, task = .accept entry j → j.Assigned g.assigned) :
    Assign (g.openRound owner targets task) := by
  refine h.quiet (fun _ => .refl _) rfl h.issued (fun rid o next hc => ?_) h.candidacy
    fun j hj => ?_
  · rcases hc.of_openRound with hold | ⟨-, -, first, ht⟩
    · exact hold
    · exact absurd ht (hprep next first)
  · rcases hj.of_openRound with hold | ⟨entry, ht⟩
    · exact h.jobs j hold
    · exact hacc entry j ht

theorem addJob (h : Assign g) {j : Job} (hj : j.Assigned g.assigned) : Assign (g.addJob j) := by
  refine h.quiet (fun _ => .refl _) rfl h.issued (fun _ _ _ => id) h.candidacy fun j' hj' => ?_
  rcases hj'.of_addJob with hold | rfl
  · exact h.jobs j' hold
  · exact hj

theorem dropJob (h : Assign g) (jid : ℕ) : Assign (g.dropJob jid) :=
  h.quiet (fun _ => .refl _) rfl h.issued (fun _ _ _ => id) h.candidacy
    fun j hj => h.jobs j hj.of_dropJob

theorem addCandidacy (h : Assign g) {c : Candidacy} (hc : c.next.node = c.owner) :
    Assign (g.addCandidacy c) := by
  refine h.quiet (fun _ => .refl _) rfl h.issued (fun _ _ _ => id) (fun cid c' hc' => ?_) h.jobs
  simp only [ReplicaGroup.addCandidacy, Function.update_apply] at hc'
  split_ifs at hc'
  · obtain rfl := Option.some.inj hc'
    exact hc
  · exact h.candidacy cid c' hc'

theorem dropCandidacy (h : Assign g) (cid : ℕ) : Assign (g.dropCandidacy cid) := by
  refine h.quiet (fun _ => .refl _) rfl h.issued (fun _ _ _ => id) (fun cid' c' hc' => ?_) h.jobs
  simp only [ReplicaGroup.dropCandidacy, Function.update_apply] at hc'
  split_ifs at hc'
  exact h.candidacy cid' c' hc'

theorem issue (h : Assign g) {e : Entry} (he : e ∈ g.assigned) : Assign (g.issue e) :=
  h.quiet (fun _ => .refl _) rfl (List.cons_subset.mpr ⟨he, h.issued⟩) (fun _ _ _ => id)
    h.candidacy h.jobs

/-! ## Campaigns, elections and proposals -/

/-- The ballot of a new campaign is above all that its replica has promised, and so unused. -/
theorem prepare (h : Assign g) {owner : NodeID} {next : Ballot} {targets : List NodeID} {first : ℕ}
    (hown : next.node = owner) (hlt : (g.nodes owner).log.promised < next) :
    Assign ((g.setNode owner ((g.nodes owner).promise next)).openRound owner targets
      (.prepare next first)) := by
  set g₁ := g.setNode owner ((g.nodes owner).promise next) with hg₁
  have h₁ : Assign g₁ := h.setNode (Node.Grows.promise hlt.le).toKeeps
  have hnew : (g₁.nodes owner).RunsFor owner g₁.assigned next := by
    refine ⟨hown, by simp [hg₁, ReplicaGroup.setNode], fun e he hb => ?_, fun hl hb => ?_⟩
    · have hle := h.reached e he
      rw [hb, hown] at hle
      exact absurd hle hlt.not_ge
    · simp only [hg₁, ReplicaGroup.setNode, Function.update_self] at hl hb
      have hle := (h.leader owner hl).reached
      rw [show (g.nodes owner).ballot = next from hb] at hle
      exact absurd hle hlt.not_ge
  have hold : ∀ rid o, ¬Campaigns g₁ rid o next := by
    rintro rid o hc
    obtain ⟨ho, hle, -, -⟩ := h.campaign rid o next hc
    rw [← ho, hown] at hle
    exact absurd hle hlt.not_ge
  refine ⟨h₁.unique, h₁.few, h₁.reached, h₁.issued, h₁.leader, ?_, ?_, h₁.candidacy, ?_⟩
  · intro rid o next' hc
    rcases hc.of_openRound with hc | ⟨-, rfl, first', ht⟩
    · exact h₁.campaign rid o next' hc
    · obtain ⟨rfl, -⟩ := Task.prepare.inj ht
      exact hnew
  · intro rid rid' o o' next' hc hc'
    rcases hc.of_openRound with hc | ⟨rfl, -, first', ht⟩ <;>
      rcases hc'.of_openRound with hc' | ⟨rfl, -, first'', ht'⟩
    · exact h₁.campaigns rid rid' o o' next' hc hc'
    · obtain ⟨rfl, -⟩ := Task.prepare.inj ht'
      exact absurd hc (hold rid o)
    · obtain ⟨rfl, -⟩ := Task.prepare.inj ht
      exact absurd hc' (hold rid' o')
    · rfl
  · intro j hj
    rcases hj.of_openRound with hj | ⟨entry, ht⟩
    · exact h₁.jobs j hj
    · simp at ht

/-- New commands are assigned, all under the ballot `b` of one leader that has no other open
campaign with it. -/
theorem assign (h : Assign g) {id : NodeID} {n : Node} {b : Ballot} {es : List Entry}
    (hb : ∀ e ∈ es, e.ballot = b) (hself : ∀ e ∈ es, ∀ e' ∈ es, e.slot = e'.slot → e = e')
    (hfew : ∀ e ∈ es, e.slot + 1 < 2 ^ 64)
    (hdisj : ∀ e ∈ es, ∀ e' ∈ g.assigned, e'.ballot = b → e'.slot ≠ e.slot)
    (hprom : (g.nodes id).log.promised = n.log.promised)
    (hballot : n.ballot = b) (hlead : n.Leads id (es ++ g.assigned))
    (hcamp : ∀ rid o, ¬Campaigns g rid o b) : Assign ((g.setNode id n).assign es) := by
  have hnode : ∀ a, a ≠ id → (g.setNode id n).nodes a = g.nodes a := fun a ha => by
    simp [ReplicaGroup.setNode, ha]
  have hself' : (g.setNode id n).nodes id = n := by simp [ReplicaGroup.setNode]
  have hprom' : ∀ a, ((g.setNode id n).nodes a).log.promised = (g.nodes a).log.promised := by
    intro a
    by_cases ha : a = id
    · rw [ha, hself', hprom]
    · rw [hnode a ha]
  refine ⟨?_, fun e he => (List.mem_append.mp he).elim (hfew e) (h.few e), ?_,
    fun e he => List.mem_append_right es (h.issued he), ?_, ?_, h.campaigns, h.candidacy,
    fun j hj => (h.jobs j hj).mono (List.subset_append_right es _)⟩
  · intro e he e' he' hs hbb
    rcases List.mem_append.mp he with he | he <;> rcases List.mem_append.mp he' with he' | he'
    · rw [hself e he e' he' hs]
    · exact absurd hs.symm (hdisj e he e' he' (hbb ▸ hb e he))
    · exact absurd hs (hdisj e' he' e he (hbb ▸ hb e' he'))
    · exact h.unique e he e' he' hs hbb
  · intro e he
    change e.ballot ≤ ((g.setNode id n).nodes e.ballot.node).log.promised
    rw [hprom']
    rcases List.mem_append.mp he with he | he
    · rw [hb e he, ← hballot, hlead.own, hprom]
      exact hlead.reached
    · exact h.reached e he
  · intro a hl
    change ((g.setNode id n).nodes a).role = .leader at hl
    change ((g.setNode id n).nodes a).Leads a (es ++ g.assigned)
    by_cases ha : a = id
    · rw [ha, hself']
      exact hlead
    · rw [hnode a ha] at hl ⊢
      obtain ⟨h₁, h₂, h₃⟩ := h.leader a hl
      refine ⟨h₁, h₂, fun e he heb => ?_⟩
      rcases List.mem_append.mp he with he | he
      · -- the new commands carry the ballot of another replica
        rw [hb e he] at heb
        exact absurd (h₁.symm.trans (heb ▸ hballot ▸ hlead.own)) ha
      · exact h₃ e he heb
  · intro rid o next hc
    have hne : next ≠ b := fun hnb => hcamp rid o (hnb ▸ hc)
    obtain ⟨h₁, h₂, h₃, h₄⟩ := h.campaign rid o next hc
    refine ⟨h₁, ?_, fun e he => ?_, fun hl => ?_⟩
    · exact (hprom' o).symm ▸ h₂
    · rcases List.mem_append.mp he with he | he
      · rw [hb e he]
        exact hne.symm
      · exact h₃ e he
    · change ((g.setNode id n).nodes o).role = .leader at hl
      change ((g.setNode id n).nodes o).ballot ≠ next
      by_cases ho : o = id
      · rw [ho, hself', hballot]
        exact hne.symm
      · rw [hnode o ho] at hl ⊢
        exact h₄ hl

theorem continueJob (h : Assign g) {j : Job} (hj : j.Assigned g.assigned) :
    Assign (g.continueJob j) := by
  unfold ReplicaGroup.continueJob
  cases hc : j.caller with
  | propose => exact h
  | recovery best maxSlot =>
    dsimp only
    split_ifs with hle
    · obtain ⟨h₁, h₂, h₃⟩ := hj.rest best maxSlot hc
      have hsucc : uint64Succ j.slot = j.slot + 1 := uint64Succ_of_lt (by omega)
      rw [hsucc] at hle ⊢
      refine h.addJob ⟨h₃ _ (by simp) hle, fun best' maxSlot' hc' => ?_⟩
      obtain ⟨rfl, rfl⟩ := Caller.recovery.inj hc'
      exact ⟨h₁, hle, fun s hs hs' => h₃ s (by dsimp only at hs; omega) hs'⟩
    · exact h

/-- A slot is handed out by its leader. -/
theorem propose (h : Assign g) {id : NodeID} {command : Command}
    (hl : (g.nodes id).role = .leader) (hwrap : (g.nodes id).nextSlot + 1 < 2 ^ 64) :
    Assign (((g.setNode id
        { g.nodes id with nextSlot := uint64Succ (g.nodes id).nextSlot }).assign
      [⟨(g.nodes id).nextSlot, (g.nodes id).ballot, command⟩]).addJob
      ⟨id, .propose, (g.nodes id).nextSlot, command, (g.nodes id).ballot⟩) := by
  obtain ⟨hown, hreached, hslots⟩ := h.leader id hl
  rw [uint64Succ_of_lt hwrap]
  refine addJob (assign (b := (g.nodes id).ballot) h ?_ ?_ ?_ ?_ ?_ ?_ ?_ ?_) ?_
  · simp
  · simp
  · simpa using hwrap
  · intro e he e' he' hb
    rw [List.mem_singleton.mp he]
    exact (hslots e' he' hb).ne
  · rfl
  · rfl
  · refine ⟨hown, hreached, fun e he hb => ?_⟩
    rcases List.mem_append.mp he with he | he
    · rw [List.mem_singleton.mp he]
      exact Nat.lt_succ_self _
    · exact (hslots e he hb).trans (Nat.lt_succ_self _)
  · intro rid o hc
    obtain ⟨ho, -, -, hne⟩ := h.campaign rid o _ hc
    obtain rfl : id = o := hown.symm.trans ho
    exact hne hl rfl
  · exact ⟨by simp [ReplicaGroup.assign], by simp⟩

theorem mem_recovered {best : ℕ → Option Entry} {b : Ballot} {first maxSlot : ℕ} {e : Entry} :
    e ∈ recovered best b first maxSlot ↔
      ∃ s, first ≤ s ∧ s ≤ maxSlot ∧ e = ⟨s, b, Node.recoveredCommand best s⟩ := by
  simp only [recovered, List.mem_map, List.mem_range'_1]
  constructor
  · rintro ⟨s, hs, rfl⟩
    exact ⟨s, hs.1, by omega, rfl⟩
  · rintro ⟨s, h₁, h₂, rfl⟩
    exact ⟨s, by omega, rfl⟩

/-- A new leader assigns what it recovered, under a ballot that was never used. -/
theorem winCampaign (h : Assign g) {id : NodeID} {next : Ballot} {first : ℕ}
    {replies : List Message} (hrun : (g.nodes id).RunsFor id g.assigned next)
    (hcamp : ∀ rid o, ¬Campaigns g rid o next)
    (hwrap : (Node.gather first (gathered (g.nodes id) first replies)).2 + 1 < 2 ^ 64) :
    Assign (g.winCampaign id next first replies) := by
  unfold ReplicaGroup.winCampaign
  dsimp only
  set best := (Node.gather first (gathered (g.nodes id) first replies)).1
  set maxSlot := (Node.gather first (gathered (g.nodes id) first replies)).2
  have hnext : maxSlot < ((g.nodes id).becomeLeader id next first maxSlot).nextSlot := by
    simp only [Node.becomeLeader, uint64Succ_of_lt hwrap]
    split_ifs <;> omega
  have h' : Assign ((g.setNode id ((g.nodes id).becomeLeader id next first maxSlot)).assign
      (recovered best next first maxSlot)) := by
    refine h.assign (b := next) ?_ ?_ ?_ ?_ rfl rfl ⟨hrun.own, hrun.reached, ?_⟩ hcamp
    · intro e he
      obtain ⟨s, -, -, rfl⟩ := mem_recovered.mp he
      rfl
    · intro e he e' he' hs
      obtain ⟨s, -, -, rfl⟩ := mem_recovered.mp he
      obtain ⟨s', -, -, rfl⟩ := mem_recovered.mp he'
      obtain rfl : s = s' := hs
      rfl
    · intro e he
      obtain ⟨s, -, hs, rfl⟩ := mem_recovered.mp he
      exact (Nat.succ_le_succ hs).trans_lt hwrap
    · intro e _ e' he' hb
      exact absurd hb (hrun.unused e' he')
    · intro e he hb
      rcases List.mem_append.mp he with he | he
      · obtain ⟨s, -, hs, rfl⟩ := mem_recovered.mp he
        exact hs.trans_lt hnext
      · exact absurd hb (hrun.unused e he)
  have hmem : ∀ s, first ≤ s → s ≤ maxSlot → ⟨s, next, Node.recoveredCommand best s⟩ ∈
      recovered best next first maxSlot ++ g.assigned :=
    fun s hs hs' => List.mem_append_left _ (mem_recovered.mpr ⟨s, hs, hs', rfl⟩)
  split_ifs with hle
  · refine h'.addJob ⟨hmem first le_rfl hle, fun best' maxSlot' hc => ?_⟩
    obtain ⟨rfl, rfl⟩ := Caller.recovery.inj hc
    exact ⟨hwrap, hle, hmem⟩
  · exact h'

end Assign

namespace ReplicaGroup

variable {cfg : Config} {g g' : ReplicaGroup}

/-- The steps under which a slot has one command in a ballot. -/
def guardedSlots (cfg : Config) (g : ReplicaGroup) (a : Action) : Bool :=
  g.freshBallot a && g.adoptionKept cfg a && g.sameLeadership a && g.noWrap a

/-- **Every step keeps the assignment of commands**, when it meets the conditions. -/
theorem assign_step (h : Assign g) {act : Action} (hok : g.guardedSlots cfg act = true)
    (ho : Outcome cfg g act g') : Assign g' := by
  simp only [guardedSlots, Bool.and_eq_true] at hok
  obtain ⟨⟨⟨hfresh, hkept⟩, hsame⟩, hwrap⟩ := hok
  cases ho with
  | @campaign id =>
    have hk : (g.nodes id).Keeps { g.nodes id with role := .candidate } := ⟨le_rfl, by simp⟩
    refine Assign.openRound (h.setNode hk) ?_ ?_ <;> simp
  | @prepare cid disk c hc =>
    have hlt := lt_of_freshBallot hfresh hc
    exact (h.dropCandidacy cid).prepare (h.candidacy cid c hc) hlt
  | noPrepare _ hn => exact (h.dropCandidacy _).setNode (Node.Grows.stepsDown hn).toKeeps
  | @propose id command _ hl => exact h.propose hl (by simpa [noWrap] using hwrap)
  | @replicate jid disk j hj hl =>
    have hunder := eq_under_of_sameLeadership hsame hj hl
    have hja := h.jobs j (Or.inl ⟨jid, hj⟩)
    refine (((h.dropJob jid).setNode (Node.Keeps.vote _ _)).issue ?_).openRound (by simp) ?_
    · rw [hunder]
      exact hja.entry
    · intro entry j' he
      obtain ⟨-, rfl⟩ := Task.accept.inj he
      exact hja
  | noReplicate _ hn => exact (h.dropJob _).setNode (Node.Grows.stepsDown hn).toKeeps
  | heartbeat => exact h.openRound (by simp) (by simp)
  | apply hn => exact h.setNode (Node.Grows.applyNext hn).toKeeps
  | answer hr => exact h.answer hr
  | fetch hr =>
    refine Assign.openRound (h.answer hr) ?_ ?_ <;> simp
  | collect hr => exact h.setRound (pending_eq_some.mp hr).1 rfl rfl id
  | stop hr hn => exact (h.close hr).setNode (Node.Grows.stepsDown hn).toKeeps
  | choose hr => exact (h.close hr).addCandidacy rfl
  | lose hr ht hq hlt =>
    have hle := le_of_adoptionKept hkept hr ht hq hlt
    exact (h.close hr).setNode ⟨hle, by simp⟩
  | @win rid disk first expired r next hr ht hq =>
    obtain ⟨hr', hc⟩ := pending_eq_some.mp hr
    have hcamp : Campaigns g rid r.owner next := ⟨r, first, hr', hc, rfl, ht⟩
    have hlt := lt_of_noWrap hwrap hr ht
    refine (h.close hr).winCampaign (h.campaign _ _ _ hcamp) (fun rid' o hc' => ?_) hlt
    obtain ⟨hne, hc'⟩ := hc'.of_close
    exact hne (h.campaigns _ _ _ _ _ hc' hcamp)
  | @commit rid disk expired r entry j hr ht =>
    have hja := h.jobs j (Or.inr ⟨rid, r, entry, (pending_eq_some.mp hr).1, ht⟩)
    exact ((h.close hr).setNode (Node.Grows.markCommitted _ _).toKeeps).continueJob hja
  | learn hr => exact (h.close hr).setNode (Node.Grows.concludeCatchUp _ _ _ _ _).toKeeps

end ReplicaGroup

end PaxosPayments.Paxos
