import PaxosPayments.Paxos.Agreement
import PaxosPayments.Paxos.LogFile

/-!
# Replicas that crash and come back

A bank replica keeps its log on disk and nothing else: when its process ends and is started again,
`OpenLog` reads the entries and the promise, and `NewNode` begins as a follower that has committed
and applied nothing. Its goroutines are gone. What they had sent may still be handled by the other
replicas, and what others had sent to it may still arrive.

The crashes here are those after which the entry file has the lines of the replica's votes and
adoptions and nothing else. Then `OpenLog` reads the log that the replica had (`log_restart`). If
the process dies in an `Accept`, it reads that log or the one with the new entry
(`opened_written_take`). But what is left of a line that was cut stays in the file: the next entry
is appended to it and is lost with it at the following start (`LogFile`), so nothing here holds of a
replica that goes on after such a crash. Nor are those crashes covered that follow a failed write
which has left its line behind, nor those of a replica of the control plane, whose log is in memory.

The marks of `committed` are not written anywhere. The invariant of `Agreement` is about them, and
it holds all the same: a slot that was once marked holds a chosen value, whether the replica
remembers the mark or not. So the marks from before the crashes are kept aside (`Restarting.known`;
nothing of the source reads them), and the group that remembers all its marks
(`Restarting.remembered`) makes the same steps as the group that forgets them (`Outcome.remember`)
and meets the invariant.

Two replicas then apply the same command in a slot, and so does one replica before and after a crash
(`applied_agree_restarts`), and what was committed before any number of crashes stays what it was
(`committed_stable_restarts`).
-/

namespace PaxosPayments.Paxos

/-! ## What `OpenLog` reads -/

/-- What an event does to the log of its replica. -/
def Event.write : Event → Log → Log
  | .promised b, l => l.promise b
  | .voted e, l => l.accept e
  | .adopted e, l => l.accept e
  | .applied _ _, l => l

namespace LogFile

variable (json : Codec)

/-- `OpenLog`: the entries of the one file, and the promise of the other. -/
def opened (file : Bytes) (promised : Ballot) : Log := (replay json file).promise promised

/-- The lines that a replica with this history has appended. -/
def written : List Event → Bytes
  | [] => []
  | .voted e :: history => written history ++ line json e
  | .adopted e :: history => written history ++ line json e
  | _ :: history => written history

variable {json}

theorem whole_written (history : List Event) : byteEnds.Whole (written json history) := by
  induction history with
  | nil => exact Or.inl rfl
  | cons ev history ih =>
    cases ev with
    | voted e | adopted e => exact Or.inr (by simp [written, line])
    | promised | applied => exact ih

theorem opened_written (history : List Event) (b : Ballot) :
    opened json (written json history) b = (history.foldr Event.write Log.empty).promise b := by
  induction history with
  | nil => rfl
  | cons ev history ih =>
    cases ev with
    | voted e | adopted e =>
      simp only [opened, written, replay_append_line (whole_written history), List.foldr_cons,
        Event.write]
      exact congrArg (Log.accept · e) ih
    | promised | applied => exact ih

/-- A crash during the append of `e` leaves the log that there was, or the one with `e`. -/
theorem opened_written_take (history : List Event) (e : Entry) (k : ℕ) (b : Ballot) :
    opened json (written json history ++ (line json e).take k) b =
        opened json (written json history) b ∨
      opened json (written json history ++ (line json e).take k) b =
        (opened json (written json history) b).accept e := by
  unfold opened
  rcases replay_append_take (whole_written history) e k with hr | hr
  · exact Or.inl (by rw [hr])
  · exact Or.inr (by rw [hr]; rfl)

end LogFile

namespace Node

variable {n n' : Node}

/-- The log is what the history has made of an empty one. -/
def Recorded (n : Node) : Prop := n.log = n.history.foldr Event.write Log.empty

namespace Recorded

/-- A change that touches neither the log nor the history. -/
theorem quiet (h : Recorded n) (hl : n'.log = n.log) (hh : n'.history = n.history) :
    Recorded n' := by
  rw [Recorded, hl, hh]
  exact h

theorem promise (h : Recorded n) (b : Ballot) : Recorded (n.promise b) :=
  congrArg (Log.promise · b) h

theorem vote (h : Recorded n) (e : Entry) : Recorded (n.vote e) := congrArg (Log.accept · e) h

theorem adopt (h : Recorded n) (e : Entry) : Recorded (n.adopt e) := congrArg (Log.accept · e) h

theorem stepsDown (h : Recorded n) (hn : n.StepsDown n') : Recorded n' := by
  rcases hn with rfl | ⟨b, disk, rfl⟩
  · exact h
  · have hf : Recorded { n with role := .follower } := h.quiet rfl rfl
    unfold Node.stepDown
    dsimp only
    split_ifs
    · exact hf.promise b
    · exact hf

theorem catchUpLoop (entries : List Entry) (fuel slot disk : ℕ) (h : Recorded n) :
    Recorded (Node.catchUpLoop entries fuel slot disk n).2 := by
  induction fuel generalizing slot disk n with
  | zero => exact h
  | succ fuel ih =>
    unfold Node.catchUpLoop
    split
    · exact h
    · dsimp only
      split_ifs
      · exact ih _ _ h
      · exact h
      · exact ih _ _ (h.adopt _)

theorem concludeCatchUp (h : Recorded n) (first commitIndex : ℕ) (reply : Option Message)
    (disk : ℕ) : Recorded (n.concludeCatchUp first commitIndex reply disk) := by
  unfold Node.concludeCatchUp
  cases reply with
  | none => exact h.quiet rfl rfl
  | some r =>
    dsimp only
    split_ifs
    · exact h.quiet rfl rfl
    · exact (catchUpLoop _ _ _ _ h).quiet rfl rfl

theorem handle (h : Recorded n) (id : NodeID) (msg : Message) (disk : ℕ) :
    Recorded (n.handle id msg disk).1 := by
  unfold Node.handle
  cases msg.kind with
  | prepare =>
    simp only [handlePrepare]
    split_ifs
    · exact h
    · exact h
    · exact (h.promise msg.ballot).quiet rfl rfl
  | accept =>
    simp only [handleAccept]
    split_ifs
    · exact h
    · exact h
    · exact h.promise msg.ballot
    · exact ((h.promise msg.ballot).vote _).quiet rfl rfl
    · exact h
    · exact (h.vote _).quiet rfl rfl
  | commit =>
    simp only [handleCommit]
    split_ifs <;> exact h.quiet rfl rfl
  | _ => exact h

theorem applyNext (h : Recorded n) (hn : n.applyNext = some n') : Recorded n' := by
  unfold Node.applyNext at hn
  dsimp only at hn
  split_ifs at hn
  split at hn
  · simp at hn
  · obtain rfl := Option.some.inj hn
    exact h

end Recorded

end Node

/-- **Every write of a replica is in its history.** -/
theorem ReplicaGroup.Outcome.recorded {cfg : Config} {g g' : ReplicaGroup}
    {act : ReplicaGroup.Action} (ho : ReplicaGroup.Outcome cfg g act g')
    (h : ∀ p, (g.nodes p).Recorded) (p : NodeID) : (g'.nodes p).Recorded := by
  have hset : ∀ {id : NodeID} {n : Node}, g'.nodes = Function.update g.nodes id n →
      n.Recorded → (g'.nodes p).Recorded := by
    intro id n hnodes hn
    rw [hnodes, Function.update_apply]
    split_ifs
    · exact hn
    · exact h p
  cases ho with
  | apply hn => exact hset rfl ((h _).applyNext hn)
  | campaign => exact hset rfl ((h _).quiet rfl rfl)
  | prepare => exact hset rfl ((h _).promise _)
  | noPrepare _ hn => exact hset rfl ((h _).stepsDown hn)
  | propose => exact hset rfl ((h _).quiet rfl rfl)
  | replicate => exact hset rfl ((h _).vote _)
  | noReplicate _ hn => exact hset rfl ((h _).stepsDown hn)
  | heartbeat | collect | choose => exact h p
  | answer | fetch => exact hset rfl ((h _).handle _ _ _)
  | stop _ hn => exact hset rfl ((h _).stepsDown hn)
  | lose => exact hset rfl (((h _).promise _).quiet rfl rfl)
  | win => exact hset (winCampaign_nodes ..) ((h _).quiet rfl rfl)
  | commit => exact hset (continueJob_nodes ..) ((h _).quiet rfl rfl)
  | learn => exact hset rfl ((h _).concludeCatchUp _ _ _ _)

/-! ## Crashes -/

namespace Node

variable {n n' : Node} {k : ℕ → Bool}

/-- `NewNode`, when `OpenLog` reads the log that the replica had. -/
def restart (n : Node) : Node :=
  { n with role := .follower, ballot := Ballot.zero, leader := "", nextSlot := 0,
           catchingUp := false, committed := fun _ => false, appliedIndex := 0 }

/-- The replica with further slots marked as committed. -/
def remember (n : Node) (k : ℕ → Bool) : Node :=
  { n with committed := fun s => n.committed s || k s }

@[simp] theorem remember_log : (n.remember k).log = n.log := rfl

@[simp] theorem remember_appliedIndex : (n.remember k).appliedIndex = n.appliedIndex := rfl

theorem remember_stepDown (b : Ballot) (disk : ℕ) :
    (n.remember k).stepDown b disk = (n.stepDown b disk).remember k := by
  unfold stepDown
  dsimp only
  rw [apply_ite (fun n : Node => n.remember k)]
  rfl

theorem StepsDown.remember (h : n.StepsDown n') : (n.remember k).StepsDown (n'.remember k) := by
  rcases h with rfl | ⟨b, disk, rfl⟩
  · exact Or.inl rfl
  · exact Or.inr ⟨b, disk, (remember_stepDown b disk).symm⟩

theorem remember_markCommitted (slots : List ℕ) :
    (n.remember k).markCommitted slots = (n.markCommitted slots).remember k := by
  simp only [markCommitted, remember, mk.injEq, true_and, and_true]
  funext s
  exact Bool.or_right_comm ..

theorem remember_handlePrepare (id : NodeID) (msg : Message) (disk : ℕ) :
    handlePrepare id (n.remember k) msg disk =
      ((handlePrepare id n msg disk).1.remember k, (handlePrepare id n msg disk).2) := by
  by_cases hless : msg.ballot.less n.log.promised = true
  · simp [handlePrepare, hless]
  · by_cases hdisk : disk = 0
    · simp [handlePrepare, hdisk]
    · simp only [handlePrepare, remember_log, hless, hdisk, if_false]
      rfl

theorem remember_handleAccept (id : NodeID) (msg : Message) (disk : ℕ) :
    handleAccept id (n.remember k) msg disk =
      ((handleAccept id n msg disk).1.remember k, (handleAccept id n msg disk).2) := by
  by_cases hless : msg.ballot.less n.log.promised = true
  · simp [handleAccept, hless]
  · by_cases hraise : n.log.promised.less msg.ballot = true
    · by_cases hdisk : disk = 0
      · simp only [handleAccept, remember_log, hless, hraise, hdisk, if_true]
        rfl
      · by_cases hone : disk = 1
        · simp only [handleAccept, remember_log, hless, hraise, hone, if_true]
          rfl
        · simp only [handleAccept, remember_log, hless, hraise, hdisk, hone, if_true, if_false]
          rfl
    · by_cases hdisk : disk = 0
      · simp only [handleAccept, remember_log, hless, hraise, hdisk, if_true]
        rfl
      · simp only [handleAccept, remember_log, hless, hraise, hdisk, if_false]
        rfl

theorem remember_handleCommit (id : NodeID) (msg : Message) :
    handleCommit id (n.remember k) msg =
      ((handleCommit id n msg).1.remember k, (handleCommit id n msg).2) := by
  by_cases hless : msg.ballot.less n.log.promised = true
  · simp [handleCommit, hless]
  · simp only [handleCommit, remember_log, hless]
    rfl

/-- What a replica answers, and what becomes of it, does not depend on its marks. -/
theorem remember_handle (id : NodeID) (msg : Message) (disk : ℕ) :
    (n.remember k).handle id msg disk =
      ((n.handle id msg disk).1.remember k, (n.handle id msg disk).2) := by
  unfold handle
  cases msg.kind with
  | prepare =>
    dsimp only
    rw [remember_handlePrepare]
  | accept =>
    dsimp only
    rw [remember_handleAccept]
  | commit => exact remember_handleCommit id msg
  | _ => rfl

theorem remember_catchUpLoop (entries : List Entry) (fuel slot disk : ℕ) (n : Node) :
    catchUpLoop entries fuel slot disk (n.remember k) =
      ((catchUpLoop entries fuel slot disk n).1,
        (catchUpLoop entries fuel slot disk n).2.remember k) := by
  induction fuel generalizing slot disk n with
  | zero => rfl
  | succ fuel ih =>
    have hadopt : ∀ e, (n.remember k).adopt e = (n.adopt e).remember k := fun _ => rfl
    simp only [catchUpLoop, remember_log, hadopt, ih]
    cases chosenEntry entries slot with
    | none => rfl
    | some e =>
      dsimp only
      split_ifs <;> rfl

theorem remember_concludeCatchUp (first commitIndex : ℕ) (reply : Option Message) (disk : ℕ) :
    (n.remember k).concludeCatchUp first commitIndex reply disk =
      (n.concludeCatchUp first commitIndex reply disk).remember k := by
  unfold concludeCatchUp
  cases reply with
  | none => rfl
  | some r =>
    dsimp only
    rw [remember_catchUpLoop]
    split_ifs
    · rfl
    · rw [remember_markCommitted]
      rfl

/-- More marks only enable the apply loop. -/
theorem remember_applyNext (h : n.applyNext = some n') :
    (n.remember k).applyNext = some (n'.remember k) := by
  unfold applyNext at h ⊢
  dsimp only [remember_log, remember_appliedIndex] at h ⊢
  split_ifs at h with hc
  rw [if_pos (by simp [remember, hc])]
  cases he : n.log.entries (uint64Succ n.appliedIndex) with
  | none => simp [he] at h
  | some e =>
    rw [he] at h
    obtain rfl := Option.some.inj h
    rfl

end Node

namespace ReplicaGroup

variable {cfg : Config} {g g' : ReplicaGroup} {k : NodeID → ℕ → Bool} {a : Action}

/-- The group with further slots marked as committed. -/
def remember (g : ReplicaGroup) (k : NodeID → ℕ → Bool) : ReplicaGroup :=
  { g with nodes := fun a => (g.nodes a).remember (k a) }

theorem remember_setNode (id : NodeID) (n : Node) :
    (g.setNode id n).remember k = (g.remember k).setNode id (n.remember (k id)) := by
  unfold remember setNode
  congr 1
  funext a
  by_cases ha : a = id
  · subst ha
    simp
  · simp [ha]

theorem remember_broadcast (id : NodeID) (task : Task) :
    (g.broadcast cfg id task).remember k = (g.remember k).broadcast cfg id task := rfl

theorem remember_openRound (owner : NodeID) (targets : List NodeID) (task : Task) :
    (g.openRound owner targets task).remember k = (g.remember k).openRound owner targets task := rfl

theorem remember_addJob (j : Job) : (g.addJob j).remember k = (g.remember k).addJob j := rfl

theorem remember_assign (es : List Entry) :
    (g.assign es).remember k = (g.remember k).assign es := rfl

theorem remember_issue (e : Entry) : (g.issue e).remember k = (g.remember k).issue e := rfl

theorem remember_setRound (rid : ℕ) (r : Round) :
    (g.setRound rid r).remember k = (g.remember k).setRound rid r := rfl

theorem remember_winCampaign (id : NodeID) (next : Ballot) (first : ℕ) (replies : List Message) :
    (g.winCampaign id next first replies).remember k =
      (g.remember k).winCampaign id next first replies := by
  have hgather : gathered ((g.remember k).nodes id) first replies =
      gathered (g.nodes id) first replies := rfl
  simp only [winCampaign, hgather]
  split_ifs
  · rw [remember_addJob, remember_assign, remember_setNode]
    rfl
  · rw [remember_assign, remember_setNode]
    rfl

theorem remember_continueJob (j : Job) :
    (g.continueJob j).remember k = (g.remember k).continueJob j := by
  unfold continueJob
  cases j.caller with
  | propose => rfl
  | recovery best maxSlot =>
    dsimp only
    split_ifs <;> rfl

/-- **The marks that a replica has forgotten make no difference** to what the group does. -/
theorem Outcome.remember (ho : Outcome cfg g a g') :
    Outcome cfg (g.remember k) a (g'.remember k) := by
  cases ho with
  | campaign hid hr =>
    rw [remember_broadcast, remember_setNode]
    exact .campaign hid hr
  | @prepare cid disk c hc =>
    rw [remember_broadcast, remember_setNode]
    exact Outcome.prepare (g := g.remember k) hc
  | @noPrepare cid disk c n hc hn =>
    rw [remember_setNode]
    exact Outcome.noPrepare (g := g.remember k) hc hn.remember
  | @propose id command hid hl =>
    rw [remember_addJob, remember_assign, remember_setNode]
    exact Outcome.propose (g := g.remember k) hid hl
  | @replicate jid disk j hj hl =>
    rw [remember_broadcast, remember_issue, remember_setNode]
    exact Outcome.replicate (g := g.remember k) hj hl
  | noReplicate hj hn =>
    rw [remember_setNode]
    exact Outcome.noReplicate (g := g.remember k) hj hn.remember
  | heartbeat hid hl => exact Outcome.heartbeat (g := g.remember k) hid hl
  | apply hn =>
    rw [remember_setNode]
    exact Outcome.apply (g := g.remember k) (Node.remember_applyNext hn)
  | @answer rid disk p r hr hsent hf =>
    have hhandle : ((g.remember k).nodes p).handle p (r.task.request r.owner) disk = _ :=
      Node.remember_handle p (r.task.request r.owner) disk
    have h : Outcome cfg (g.remember k) (.deliver rid p disk) _ :=
      .answer hr hsent (by rw [hhandle]; exact hf)
    rw [hhandle] at h
    rw [remember_setRound, remember_setNode]
    exact h
  | @fetch rid disk p r f hr hsent hf =>
    have hhandle : ((g.remember k).nodes p).handle p (r.task.request r.owner) disk = _ :=
      Node.remember_handle p (r.task.request r.owner) disk
    have h : Outcome cfg (g.remember k) (.deliver rid p disk) _ :=
      .fetch hr hsent (by rw [hhandle]; exact hf)
    rw [hhandle] at h
    rw [remember_openRound, remember_setRound, remember_setNode]
    exact h
  | collect hr hrpc => exact Outcome.collect (g := g.remember k) hr hrpc
  | stop hr hn =>
    rw [remember_setNode]
    exact Outcome.stop (g := g.remember k) hr hn.remember
  | choose hr ht hc => exact Outcome.choose (g := g.remember k) hr ht hc
  | lose hr ht hq hlt =>
    rw [remember_setNode]
    exact Outcome.lose (g := g.remember k) hr ht hq hlt
  | win hr ht hq =>
    rw [remember_winCampaign]
    exact Outcome.win (g := g.remember k) hr ht hq
  | commit hr ht hq =>
    rw [remember_continueJob, remember_setNode, ← Node.remember_markCommitted]
    exact Outcome.commit (g := g.remember k) hr ht hq
  | learn hr ht =>
    rw [remember_setNode, ← Node.remember_concludeCatchUp]
    exact Outcome.learn (g := g.remember k) hr ht

/-- The process of `p` ends and is started again. Its goroutines are gone. -/
def restart (g : ReplicaGroup) (p : NodeID) : ReplicaGroup :=
  { g.setNode p (g.nodes p).restart with
    rounds := fun rid => (g.rounds rid).map fun r => if r.owner = p then r.close else r
    jobs := fun jid => (g.jobs jid).filter (·.owner ≠ p)
    candidacies := fun cid => (g.candidacies cid).filter (·.owner ≠ p) }

theorem round_of_restart {p : NodeID} {rid : ℕ} {r : Round}
    (h : (g.restart p).rounds rid = some r) :
    ∃ r₀, g.rounds rid = some r₀ ∧ (r = r₀ ∨ r = r₀.close) := by
  obtain ⟨r₀, hr₀, rfl⟩ := Option.map_eq_some_iff.mp h
  refine ⟨r₀, hr₀, ?_⟩
  split_ifs
  · exact Or.inr rfl
  · exact Or.inl rfl

end ReplicaGroup

/-! ## A group whose replicas crash -/

structure Restarting where
  group : ReplicaGroup
  /-- The slots that a replica had marked committed before it crashed. -/
  known : NodeID → ℕ → Bool

namespace Restarting

open ReplicaGroup (Outcome)

inductive Action
  | replica (a : ReplicaGroup.Action)
  | restart (p : NodeID)

def init : Restarting := ⟨.init, fun _ _ => false⟩

/-- The group with all marks that were ever made. -/
def remembered (s : Restarting) : ReplicaGroup := s.group.remember s.known

def restart (s : Restarting) (p : NodeID) : Restarting :=
  ⟨s.group.restart p,
    Function.update s.known p fun t => (s.group.nodes p).committed t || s.known p t⟩

def step (cfg : Config) (s : Restarting) : Action → Option Restarting
  | .replica a =>
    match s.group.step cfg a with
    | some g => some { s with group := g }
    | none => none
  | .restart p => some (s.restart p)

/-- The conditions of `Agreement`, also on the entries that were marked before a crash. -/
def guarded (cfg : Config) (s : Restarting) : Action → Bool
  | .replica a => s.remembered.guarded cfg a
  | .restart _ => true

variable {cfg : Config} {s s' : Restarting} {a : Action} {p : NodeID}

theorem recorded_step (h : ∀ q, (s.group.nodes q).Recorded) (hs : s.step cfg a = some s') :
    ∀ q, (s'.group.nodes q).Recorded := by
  cases a with
  | replica b =>
    simp only [step] at hs
    split at hs
    · rename_i g hg
      obtain rfl := Option.some.inj hs
      exact (ReplicaGroup.Outcome.of_step hg).recorded h
    · simp at hs
  | restart p =>
    obtain rfl := Option.some.inj hs
    intro q
    by_cases hq : q = p
    · subst hq
      have hn : (s.group.nodes q).restart.Recorded := (h q).quiet rfl rfl
      simpa [restart, ReplicaGroup.restart, ReplicaGroup.setNode] using hn
    · simpa [restart, ReplicaGroup.restart, ReplicaGroup.setNode, hq] using h q

/-- **A restart has the log that `OpenLog` reads** from the lines that the replica has appended, in
every run, whatever crashes there were before. -/
theorem log_restart {ok : Restarting → Action → Bool} {acts : List Action} (json : Codec)
    (hrun : Run (step cfg) ok init acts s) (p : NodeID) :
    ((s.restart p).group.nodes p).log =
      LogFile.opened json (LogFile.written json (s.group.nodes p).history)
        (s.group.nodes p).log.promised := by
  have h : (s.group.nodes p).Recorded :=
    hrun.invariant (I := fun s => ∀ q, (s.group.nodes q).Recorded)
      (fun _ _ _ h _ hs => recorded_step h hs) (fun _ => rfl) p
  rw [LogFile.opened_written, ← h]
  simp [restart, ReplicaGroup.restart, ReplicaGroup.setNode, Node.restart, Log.promise]

theorem remembered_step {b : ReplicaGroup.Action} (hs : s.step cfg (.replica b) = some s') :
    Outcome cfg s.remembered b s'.remembered := by
  simp only [step] at hs
  split at hs
  · rename_i g hg
    obtain rfl := Option.some.inj hs
    exact (Outcome.of_step hg).remember
  · cases hs

/-- The replica after the crash, with its marks. -/
theorem nodes_restart :
    (s.restart p).remembered.nodes = (s.remembered.setNode p
      { (s.remembered.nodes p).restart with
        committed := (s.remembered.nodes p).committed }).nodes := by
  funext a
  by_cases ha : a = p
  · subst ha
    simp [remembered, restart, ReplicaGroup.remember, ReplicaGroup.restart, ReplicaGroup.setNode,
      Node.remember, Node.restart]
  · simp [remembered, restart, ReplicaGroup.remember, ReplicaGroup.restart, ReplicaGroup.setNode,
      ha]

theorem grows_restart (n : Node) :
    n.Grows { n.restart with committed := n.committed } :=
  .quiet rfl rfl (fun _ => id) (by simp [Node.restart])

theorem safe_restart {qs : Voting.Quorums NodeID} {σ : Votes} {n : Node} (h : n.Safe qs σ) :
    Node.Safe qs σ { n.restart with committed := n.committed } where
  slot := h.slot
  bound := h.bound
  stored := h.stored
  votes := h.votes
  committed := h.committed
  applied := h.applied
  upTo t h₁ h₂ := by
    simp only [Node.restart, Nat.le_zero] at h₂
    omega
  leader := by simp [Node.restart]

theorem form_restart (h : Form cfg s.remembered) : Form cfg (s.restart p).remembered := by
  refine ⟨fun rid r hr => ?_, fun jid j hj => ?_, fun cid c hc => ?_⟩
  · obtain ⟨r₀, hr₀, rfl | rfl⟩ := ReplicaGroup.round_of_restart hr
    · exact h.rounds rid r hr₀
    · have hf := h.rounds rid r₀ hr₀
      exact ⟨hf.owner, hf.target, hf.answered, hf.collected, hf.distinct, hf.job⟩
  · exact h.jobs jid j (Option.filter_eq_some_iff.mp hj).1
  · exact h.candidacies cid c (Option.filter_eq_some_iff.mp hc).1

theorem assign_restart (h : Assign s.remembered) : Assign (s.restart p).remembered := by
  refine h.quiet (fun a => ?_) rfl h.issued (fun rid o next hc => ?_) (fun cid c hc => ?_)
    fun j hj => ?_
  · rw [nodes_restart]
    by_cases ha : a = p
    · subst ha
      simpa [ReplicaGroup.setNode] using (grows_restart (s.remembered.nodes a)).toKeeps
    · simpa [ReplicaGroup.setNode, ha] using Node.Keeps.refl (s.remembered.nodes a)
  · obtain ⟨r, first, hr, hopen, howner, htask⟩ := hc
    obtain ⟨r₀, hr₀, rfl | rfl⟩ := ReplicaGroup.round_of_restart hr
    · exact ⟨r, first, hr₀, hopen, howner, htask⟩
    · cases hopen
  · exact h.candidacy cid c (Option.filter_eq_some_iff.mp hc).1
  · refine h.jobs j ?_
    rcases hj with ⟨jid, hj⟩ | ⟨rid, r, entry, hr, htask⟩
    · exact Or.inl ⟨jid, (Option.filter_eq_some_iff.mp hj).1⟩
    · obtain ⟨r₀, hr₀, rfl | rfl⟩ := ReplicaGroup.round_of_restart hr
      · exact Or.inr ⟨rid, r, entry, hr₀, htask⟩
      · exact Or.inr ⟨rid, r₀, entry, hr₀, htask⟩

/-- **A crash keeps the group safe.** -/
theorem advances_restart (h : ReplicaGroup.Invariant cfg s.remembered) :
    Safe.Advances cfg s.remembered (s.restart p).remembered := by
  have hgrow : ReplicaGroup.Grows s.remembered (s.restart p).remembered :=
    .of_grows (grows_restart _) nodes_restart fun _ => id
  refine h.safe.nodeStep (assign_restart h.assign) (grows_restart _)
    (safe_restart (h.safe.nodes p)) nodes_restart rfl fun rid r hr => ?_
  obtain ⟨r₀, hr₀, rfl | rfl⟩ := ReplicaGroup.round_of_restart hr
  · exact Or.inl hr₀
  · exact Or.inr ((h.safe.rounds rid r₀ hr₀).mono hgrow.record hgrow.done).close

theorem advances (h : ReplicaGroup.Invariant cfg s.remembered) (hok : s.guarded cfg a = true)
    (hs : s.step cfg a = some s') : Safe.Advances cfg s.remembered s'.remembered := by
  cases a with
  | replica b => exact ReplicaGroup.safe_step h.safe h.form h.assign hok (remembered_step hs)
  | restart p =>
    obtain rfl := Option.some.inj hs
    exact advances_restart h

theorem invariant_step (h : ReplicaGroup.Invariant cfg s.remembered) (hok : s.guarded cfg a = true)
    (hs : s.step cfg a = some s') : ReplicaGroup.Invariant cfg s'.remembered := by
  have hsafe := (advances h hok hs).safe
  cases a with
  | replica b =>
    have ho := remembered_step hs
    have hslots : s.remembered.guardedSlots cfg b = true := by
      simp only [guarded, ReplicaGroup.guarded, Bool.and_eq_true] at hok
      exact hok.1.1
    exact ⟨h.form.step ho, ReplicaGroup.assign_step h.assign hslots ho, hsafe⟩
  | restart p =>
    obtain rfl := Option.some.inj hs
    exact ⟨form_restart h.form, assign_restart h.assign, hsafe⟩

section

variable {acts acts' : List Action}

theorem invariant (hrun : Run (step cfg) (guarded cfg) init acts s) :
    ReplicaGroup.Invariant cfg s.remembered :=
  hrun.invariant (I := fun s => ReplicaGroup.Invariant cfg s.remembered)
    (fun _ _ _ h hok hs => invariant_step h hok hs) (.init cfg)

theorem grows (h : ReplicaGroup.Invariant cfg s.remembered)
    (hrun : Run (step cfg) (guarded cfg) s acts s') :
    ReplicaGroup.Grows s.remembered s'.remembered := by
  refine hrun.relates (I := fun s => ReplicaGroup.Invariant cfg s.remembered)
    (R := fun s s' => ReplicaGroup.Grows s.remembered s'.remembered) (fun _ => .refl _) ?_
    (fun _ _ _ h hok hs => invariant_step h hok hs)
    (fun _ _ _ h hok hs => (advances h hok hs).grows) h
  intro s t u h₁ h₂
  exact h₁.trans h₂

/-- **Agreement over crashes**: whatever replicas crash and come back, and however often, the
commands that are applied in a slot are all the same, those of a replica before and after its own
crashes included. -/
theorem applied_agree_restarts (hrun : Run (step cfg) (guarded cfg) init acts s) {a a' : NodeID}
    {t : ℕ} {c c' : Command} (ha : .applied t c ∈ (s.group.nodes a).history)
    (ha' : .applied t c' ∈ (s.group.nodes a').history) : c = c' := by
  have h := (invariant hrun).safe
  obtain ⟨b, hb⟩ := (h.nodes a).applied t c ha
  obtain ⟨b', hb'⟩ := (h.nodes a').applied t c' ha'
  exact h.sound.chosen_agree hb hb'

/-- **What is committed survives crashes**: the command stored at a slot when it is marked committed
is the one that the replica stores, that it serves to others and that any replica applies at any
later time, although the mark is lost. -/
theorem committed_stable_restarts (hrun : Run (step cfg) (guarded cfg) init acts s)
    (hrun' : Run (step cfg) (guarded cfg) s acts' s') {a : NodeID} {t : ℕ}
    (hc : (s.group.nodes a).committed t = true) :
    ∃ e, (s.group.nodes a).log.entries t = some e ∧
      (∃ e', (s'.group.nodes a).log.entries t = some e' ∧ e'.command = e.command) ∧
      (∀ msg, ∀ e' ∈ (Node.handleCatchUp a (s'.group.nodes a) msg).entries, e'.slot = t →
        e'.command = e.command) ∧
      ∀ a' c, .applied t c ∈ (s'.group.nodes a').history → c = e.command := by
  have h := invariant hrun
  have hgrow := grows h hrun'
  have h' := (hrun'.invariant (I := fun s => ReplicaGroup.Invariant cfg s.remembered)
    (fun _ _ _ h hok hs => invariant_step h hok hs) h).safe
  have hmarked : s.remembered.done a t = true := by
    simp [ReplicaGroup.done, remembered, ReplicaGroup.remember, Node.remember, hc]
  obtain ⟨e, he, hslot, hb⟩ := (h.safe.nodes a).committed t hmarked
  -- the mark is lost with a crash, but not what it says of the log
  obtain ⟨e', he', hslot', hb'⟩ := (h'.nodes a).committed t (hgrow.done a t hmarked)
  subst hslot
  have hb : Voting.Backed cfg.quorums s'.remembered.record e.slot e.ballot e.command :=
    hgrow.record.backed hb
  have hcmd : e'.command = e.command := by
    unfold Entry.Backed at hb'
    rw [hslot'] at hb'
    exact h'.sound.backed_agree hb' hb
  refine ⟨e, he, ⟨e', he', hcmd⟩, fun msg e'' hmem hs => ?_, fun a' c happ => ?_⟩
  · obtain ⟨t', -, -, ht'⟩ := Log.mem_entriesFrom.mp hmem
    obtain rfl : t' = e.slot := ((h'.nodes a).slot t' e'' ht').symm.trans hs
    obtain rfl := Option.some.inj (he'.symm.trans ht')
    exact hcmd
  · obtain ⟨b, hch⟩ := (h'.nodes a').applied e.slot c happ
    exact h'.sound.backed_agree ⟨b, le_rfl, hch⟩ hb

/-- A command of `A` is accepted by `B` and applied by `A`. -/
def beforeCrash : List Action :=
  List.map .replica (ReplicaGroup.election "A" ["B"] 0 ++ ReplicaGroup.proposal "A" ["B"] 3 [120] ++
    [.apply "A"])

/-- Both crash. `C`, which has not heard of the command, is elected with the promise of `B`, and
recovers and applies it. -/
def afterCrash : List Action :=
  [.restart "A", .restart "B"] ++ List.map .replica (ReplicaGroup.election "C" ["B"] 5 ++
    [.replicate 8 1] ++ ReplicaGroup.exchange 9 ["B"] 2 ++ [.conclude 9 false 1, .apply "C"])

theorem applied_agree_restarts_three :
    ∃ s, Run (step ReplicaGroup.threeReplicas) (guarded ReplicaGroup.threeReplicas) init
        (beforeCrash ++ afterCrash) s ∧
      .applied 1 [120] ∈ (s.group.nodes "A").history ∧
      .applied 1 [120] ∈ (s.group.nodes "C").history ∧
      ∀ c, .applied 1 c ∈ (s.group.nodes "C").history → c = [120] := by
  obtain ⟨s, hrun, hf⟩ := Run.exists_of_exec_map (step ReplicaGroup.threeReplicas)
    (guarded ReplicaGroup.threeReplicas) init (beforeCrash ++ afterCrash)
    (fun s => (decide (.applied 1 [120] ∈ (s.group.nodes "A").history),
      decide (.applied 1 [120] ∈ (s.group.nodes "C").history))) (true, true) (by decide +kernel)
  simp only [Prod.mk.injEq, decide_eq_true_eq] at hf
  exact ⟨s, hrun, hf.1, hf.2, fun c hc => applied_agree_restarts hrun hc hf.1⟩

theorem committed_stable_restarts_three :
    ∃ s s', Run (step ReplicaGroup.threeReplicas) (guarded ReplicaGroup.threeReplicas) init
        beforeCrash s ∧
      Run (step ReplicaGroup.threeReplicas) (guarded ReplicaGroup.threeReplicas) s afterCrash s' ∧
      (s.group.nodes "A").committed 1 = true ∧ (s'.group.nodes "A").committed 1 = false ∧
      ∃ e, (s.group.nodes "A").log.entries 1 = some e ∧
        ∀ a' c, .applied 1 c ∈ (s'.group.nodes a').history → c = e.command := by
  obtain ⟨s, hrun, hf⟩ := Run.exists_of_exec_map (step ReplicaGroup.threeReplicas)
    (guarded ReplicaGroup.threeReplicas) init beforeCrash
    (fun s => ((s.group.nodes "A").committed 1, (exec (step ReplicaGroup.threeReplicas)
      (guarded ReplicaGroup.threeReplicas) s afterCrash).map fun s' =>
        (s'.group.nodes "A").committed 1)) (true, some false) (by decide +kernel)
  obtain ⟨hc, hexec⟩ := Prod.mk.inj hf
  obtain ⟨s', hrun', hc'⟩ := Run.exists_of_exec_map _ _ _ _ _ _ hexec
  obtain ⟨e, he, -, -, happ⟩ := committed_stable_restarts hrun hrun' hc
  exact ⟨s, s', hrun, hrun', hc, hc', e, he, happ⟩

end

end Restarting

end PaxosPayments.Paxos
