import PaxosPayments.Paxos.Applied

/-!
# Rounds and jobs that go on

Every round and every job has its own number, and keeps it. `Outcome.jobs_kept` and
`Outcome.rounds_kept` say what may happen to the one with a given number: a job waits until its
`replicate` starts, and a round goes on, with the same owner and the same task, until it is
concluded. `Outcome.rounds_origin` goes the other way: what a round is for was fixed when it was
opened.
-/

namespace PaxosPayments.Paxos

/-- A round after a step: the same but for its replies. -/
structure Round.Continues (r r' : Round) : Prop where
  owner : r'.owner = r.owner
  task : r'.task = r.task
  concluded : r'.concluded = r.concluded

theorem Round.Continues.refl (r : Round) : r.Continues r := ⟨rfl, rfl, rfl⟩

theorem Round.Continues.answer (r : Round) (p : NodeID) (m : Message) :
    r.Continues (r.answer p m) := ⟨rfl, rfl, rfl⟩

theorem Round.Continues.collect (r : Round) (p : NodeID) (m : Message) :
    r.Continues (r.collect p m) := ⟨rfl, rfl, rfl⟩

/-- What a task says about the state in which `owner` opens a round for it. -/
def Task.Opened (nodes : NodeID → Node) (owner : NodeID) : Task → Prop
  | .prepare _ first => first = uint64Succ (nodes owner).appliedIndex
  | .accept entry j =>
    j.owner = owner ∧ entry = ⟨j.slot, (nodes owner).ballot, j.command⟩
  | _ => True

namespace ReplicaGroup

variable {cfg : Config} {g g' : ReplicaGroup}

/-- Rounds and jobs have the numbers that were given out. -/
structure Numbered (g : ReplicaGroup) : Prop where
  rounds : ∀ k, g.fresh ≤ k → g.rounds k = none
  jobs : ∀ k, g.fresh ≤ k → g.jobs k = none

namespace Numbered

theorem init : Numbered init := ⟨fun _ _ => rfl, fun _ _ => rfl⟩

theorem setNode (h : Numbered g) (id : NodeID) (n : Node) : Numbered (g.setNode id n) :=
  ⟨h.rounds, h.jobs⟩

theorem assign (h : Numbered g) (es : List Entry) : Numbered (g.assign es) := ⟨h.rounds, h.jobs⟩

theorem issue (h : Numbered g) (e : Entry) : Numbered (g.issue e) := ⟨h.rounds, h.jobs⟩

theorem dropCandidacy (h : Numbered g) (cid : ℕ) : Numbered (g.dropCandidacy cid) :=
  ⟨h.rounds, h.jobs⟩

theorem setRound (h : Numbered g) {rid : ℕ} {r r' : Round} (hr : g.rounds rid = some r) :
    Numbered (g.setRound rid r') := by
  refine ⟨fun k hk => ?_, h.jobs⟩
  have hne : k ≠ rid := fun he => by simp [he ▸ h.rounds k hk] at hr
  simpa [ReplicaGroup.setRound, hne] using h.rounds k hk

theorem close (h : Numbered g) {rid : ℕ} {r : Round} (hr : g.pending rid = some r) :
    Numbered (g.setRound rid r.close) :=
  h.setRound (pending_eq_some.mp hr).1

theorem openRound (h : Numbered g) (owner : NodeID) (targets : List NodeID) (task : Task) :
    Numbered (g.openRound owner targets task) := by
  refine ⟨fun k hk => ?_, fun k hk => h.jobs k (Nat.le_of_succ_le hk)⟩
  have hne : k ≠ g.fresh := (Nat.lt_of_succ_le hk).ne'
  simpa [ReplicaGroup.openRound, ReplicaGroup.setRound, hne] using h.rounds k (Nat.le_of_succ_le hk)

theorem addJob (h : Numbered g) (j : Job) : Numbered (g.addJob j) := by
  refine ⟨fun k hk => h.rounds k (Nat.le_of_succ_le hk), fun k hk => ?_⟩
  have hne : k ≠ g.fresh := (Nat.lt_of_succ_le hk).ne'
  simpa [ReplicaGroup.addJob, hne] using h.jobs k (Nat.le_of_succ_le hk)

theorem dropJob (h : Numbered g) (jid : ℕ) : Numbered (g.dropJob jid) := by
  refine ⟨h.rounds, fun k hk => ?_⟩
  simp only [ReplicaGroup.dropJob, Function.update_apply]
  split_ifs
  · rfl
  · exact h.jobs k hk

theorem addCandidacy (h : Numbered g) (c : Candidacy) : Numbered (g.addCandidacy c) :=
  ⟨fun k hk => h.rounds k (Nat.le_of_succ_le hk), fun k hk => h.jobs k (Nat.le_of_succ_le hk)⟩

theorem continueJob (h : Numbered g) (j : Job) : Numbered (g.continueJob j) := by
  unfold ReplicaGroup.continueJob
  cases j.caller with
  | propose => exact h
  | recovery best maxSlot =>
    dsimp only
    split_ifs
    · exact h.addJob _
    · exact h

theorem winCampaign (h : Numbered g) (id : NodeID) (next : Ballot) (first : ℕ)
    (replies : List Message) : Numbered (g.winCampaign id next first replies) := by
  unfold ReplicaGroup.winCampaign
  dsimp only
  split_ifs
  · exact ((h.setNode _ _).assign _).addJob _
  · exact (h.setNode _ _).assign _

theorem step (h : Numbered g) {act : Action} (ho : Outcome cfg g act g') : Numbered g' := by
  cases ho with
  | campaign => exact (h.setNode _ _).openRound _ _ _
  | prepare => exact ((h.dropCandidacy _).setNode _ _).openRound _ _ _
  | noPrepare => exact (h.dropCandidacy _).setNode _ _
  | propose => exact ((h.setNode _ _).assign _).addJob _
  | replicate => exact (((h.dropJob _).setNode _ _).issue _).openRound _ _ _
  | noReplicate => exact (h.dropJob _).setNode _ _
  | heartbeat => exact h.openRound _ _ _
  | apply => exact h.setNode _ _
  | answer hr => exact (h.setNode _ _).setRound hr
  | fetch hr => exact ((h.setNode _ _).setRound hr).openRound _ _ _
  | collect hr => exact h.setRound (pending_eq_some.mp hr).1
  | stop hr => exact (h.close hr).setNode _ _
  | choose hr => exact (h.close hr).addCandidacy _
  | lose hr => exact (h.close hr).setNode _ _
  | win hr => exact (h.close hr).winCampaign _ _ _ _
  | commit hr => exact ((h.close hr).setNode _ _).continueJob _
  | learn hr => exact (h.close hr).setNode _ _

end Numbered

/-! ## Elementary updates -/

section Updates

variable {rid rid' jid : ℕ} {r r' : Round} {j j' : Job}

theorem jobs_addJob (hn : Numbered g) (h : g.jobs jid = some j) (j' : Job) :
    (g.addJob j').jobs jid = some j := by
  have hne : jid ≠ g.fresh := fun he => by simp [he, hn.jobs g.fresh le_rfl] at h
  simpa [addJob, hne] using h

theorem jobs_continueJob (hn : Numbered g) (h : g.jobs jid = some j) (j' : Job) :
    (g.continueJob j').jobs jid = some j := by
  unfold continueJob
  cases j'.caller with
  | propose => exact h
  | recovery best maxSlot =>
    dsimp only
    split_ifs
    · exact jobs_addJob hn h _
    · exact h

theorem jobs_winCampaign (hn : Numbered g) (h : g.jobs jid = some j) (id : NodeID) (next : Ballot)
    (first : ℕ) (replies : List Message) :
    (g.winCampaign id next first replies).jobs jid = some j := by
  unfold winCampaign
  dsimp only
  split_ifs
  · exact jobs_addJob ((hn.setNode _ _).assign _) h _
  · exact h

theorem jobs_dropJob (h : g.jobs jid = some j) {k : ℕ} (hk : k ≠ jid) :
    (g.dropJob k).jobs jid = some j := by
  simpa [dropJob, Function.update_apply, hk.symm] using h

theorem rounds_openRound (hn : Numbered g) (h : g.rounds rid = some r) (owner : NodeID)
    (targets : List NodeID) (task : Task) :
    (g.openRound owner targets task).rounds rid = some r := by
  have hne : rid ≠ g.fresh := fun he => by simp [he, hn.rounds g.fresh le_rfl] at h
  simpa [openRound, setRound, hne] using h

theorem pending_openRound (g : ReplicaGroup) (owner : NodeID) (targets : List NodeID)
    (task : Task) : (g.openRound owner targets task).pending g.fresh =
      some ⟨owner, task, fun p => if p ∈ targets then .sent else .idle, [], false⟩ := by
  simp [pending, openRound, setRound]

end Updates

/-! ## Steps -/

/-- **A job waits until its `replicate` starts.** -/
theorem Outcome.jobs_kept (hn : Numbered g) {act : Action} (ho : Outcome cfg g act g') {jid : ℕ}
    {j : Job} (h : g.jobs jid = some j) :
    g'.jobs jid = some j ∨ ∃ disk, act = .replicate jid disk := by
  cases ho with
  | propose => exact Or.inl (jobs_addJob ((hn.setNode _ _).assign _) h _)
  | @replicate k disk | @noReplicate k disk =>
    by_cases hk : k = jid
    · exact Or.inr ⟨disk, by rw [hk]⟩
    · exact Or.inl (jobs_dropJob h hk)
  | win hr => exact Or.inl (jobs_winCampaign (hn.close hr) h _ _ _ _)
  | commit hr => exact Or.inl (jobs_continueJob ((hn.close hr).setNode _ _) h _)
  | _ => exact Or.inl h

/-- **A round goes on until it is concluded.** -/
theorem Outcome.rounds_kept (hn : Numbered g) {act : Action} (ho : Outcome cfg g act g') {rid : ℕ}
    {r : Round} (h : g.rounds rid = some r) :
    (∃ r', g'.rounds rid = some r' ∧ r.Continues r') ∨
      ∃ expired disk, act = .conclude rid expired disk := by
  have hsame : g'.rounds rid = some r → ∃ r', g'.rounds rid = some r' ∧ r.Continues r' :=
    fun hr => ⟨r, hr, .refl r⟩
  have hset : ∀ {k : ℕ} {r₀ r₁ : Round}, g.rounds k = some r₀ → r₀.Continues r₁ →
      ∃ r', (g.setRound k r₁).rounds rid = some r' ∧ r.Continues r' := by
    intro k r₀ r₁ hk hr
    by_cases he : rid = k
    · subst he
      obtain rfl : r₀ = r := Option.some.inj (hk.symm.trans h)
      exact ⟨r₁, Function.update_self .., hr⟩
    · exact ⟨r, by simpa [setRound, he] using h, .refl r⟩
  have hclose : ∀ {k : ℕ} {r₀ : Round} {expired : Bool} {disk : ℕ},
      g'.rounds = (g.setRound k r₀.close).rounds → act = .conclude k expired disk →
      (∃ r', g'.rounds rid = some r' ∧ r.Continues r') ∨
        ∃ expired disk, act = .conclude rid expired disk := by
    intro k r₀ expired disk hrounds hact
    by_cases he : rid = k
    · exact Or.inr ⟨expired, disk, by rw [hact, he]⟩
    · refine Or.inl (hsame ?_)
      rw [hrounds]
      simpa [setRound, he] using h
  cases ho with
  | campaign => exact Or.inl (hsame (rounds_openRound (hn.setNode _ _) h _ _ _))
  | prepare =>
    exact Or.inl (hsame (rounds_openRound ((hn.dropCandidacy _).setNode _ _) h _ _ _))
  | replicate =>
    exact Or.inl (hsame (rounds_openRound (((hn.dropJob _).setNode _ _).issue _) h _ _ _))
  | heartbeat => exact Or.inl (hsame (rounds_openRound hn h _ _ _))
  | noPrepare | propose | noReplicate | apply => exact Or.inl (hsame h)
  | answer hr => exact Or.inl (hset hr (.answer _ _ _))
  | @fetch k disk p r₀ f hr =>
    obtain ⟨r', hr', hcont⟩ := hset hr
      (.answer r₀ p ((g.nodes p).handle p (r₀.task.request r₀.owner) disk).2.1)
    exact Or.inl ⟨r', rounds_openRound ((hn.setNode _ _).setRound hr) hr' _ _ _, hcont⟩
  | collect hr => exact Or.inl (hset (pending_eq_some.mp hr).1 (.collect _ _ _))
  | stop | choose | lose | learn => exact hclose rfl rfl
  | win => exact hclose (winCampaign_rounds ..) rfl
  | commit => exact hclose (continueJob_rounds ..) rfl

/-- **A round was there before or is opened now.** -/
theorem Outcome.rounds_origin {act : Action} (ho : Outcome cfg g act g') {rid : ℕ} {r' : Round}
    (h : g'.rounds rid = some r') :
    (∃ r, g.rounds rid = some r ∧ r'.owner = r.owner ∧ r'.task = r.task) ∨
      Task.Opened g.nodes r'.owner r'.task := by
  have hold : ∀ {r : Round}, g.rounds rid = some r → r'.owner = r.owner → r'.task = r.task →
      (∃ r, g.rounds rid = some r ∧ r'.owner = r.owner ∧ r'.task = r.task) ∨
        Task.Opened g.nodes r'.owner r'.task :=
    fun hr ho ht => Or.inl ⟨_, hr, ho, ht⟩
  have hclose : ∀ {k : ℕ} {r₀ : Round}, g.pending k = some r₀ →
      (g.setRound k r₀.close).rounds rid = some r' →
      (∃ r, g.rounds rid = some r ∧ r'.owner = r.owner ∧ r'.task = r.task) ∨
        Task.Opened g.nodes r'.owner r'.task := by
    intro k r₀ hr hk
    rcases setRound_eq_some hk with ⟨rfl, rfl⟩ | ⟨-, hr'⟩
    · exact hold (pending_eq_some.mp hr).1 rfl rfl
    · exact hold hr' rfl rfl
  cases ho with
  | campaign | heartbeat =>
    rcases setRound_eq_some h with ⟨rfl, rfl⟩ | ⟨-, hr⟩
    · exact Or.inr trivial
    · exact hold hr rfl rfl
  | prepare =>
    rcases setRound_eq_some h with ⟨rfl, rfl⟩ | ⟨-, hr⟩
    · exact Or.inr rfl
    · exact hold hr rfl rfl
  | replicate =>
    rcases setRound_eq_some h with ⟨rfl, rfl⟩ | ⟨-, hr⟩
    · exact Or.inr ⟨rfl, rfl⟩
    · exact hold hr rfl rfl
  | noPrepare | propose | noReplicate | apply => exact hold h rfl rfl
  | answer hr =>
    rcases setRound_eq_some h with ⟨rfl, rfl⟩ | ⟨-, hr'⟩
    · exact hold hr rfl rfl
    · exact hold hr' rfl rfl
  | fetch hr =>
    rcases setRound_eq_some h with ⟨rfl, rfl⟩ | ⟨-, h⟩
    · exact Or.inr trivial
    · rcases setRound_eq_some h with ⟨rfl, rfl⟩ | ⟨-, hr'⟩
      · exact hold hr rfl rfl
      · exact hold hr' rfl rfl
  | collect hr =>
    rcases setRound_eq_some h with ⟨rfl, rfl⟩ | ⟨-, hr'⟩
    · exact hold (pending_eq_some.mp hr).1 rfl rfl
    · exact hold hr' rfl rfl
  | stop hr | choose hr | lose hr | learn hr => exact hclose hr h
  | win hr =>
    rw [winCampaign_rounds] at h
    exact hclose hr h
  | commit hr =>
    rw [continueJob_rounds] at h
    exact hclose hr h

end ReplicaGroup

end PaxosPayments.Paxos
