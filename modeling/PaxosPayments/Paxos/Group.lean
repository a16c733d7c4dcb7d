import PaxosPayments.Foundations.Runs
import PaxosPayments.Paxos.Node

/-!
# A group of replicas

The transition system of a group of replicas that run `node.go` with the same list of peers. One
call of `Handle` is one step (`deliver`); `campaign` and `replicate` are split at their broadcasts
into the local part with the log write and the send, the collection of replies, and the conclusion.
A campaign is also split between the choice of its ballot (`probed`, which reads the promise) and
the promise of it (`prepare`), so that two campaigns of one replica may overlap there.

A broadcast is a `Round`. To every peer it has a `Send` (`Rpc`) whose request may be handled at any
later time, also after the round is concluded, and whose reply may be collected while the round is
open. Requests and replies that are never handled or collected are lost, and a replica that is cut
off is one with which nothing is exchanged.

`ReplicaGroup.assigned` and `ReplicaGroup.issued` are not in the source and nothing reads them.
`assigned` lists the commands fixed for a slot under a ballot, by `Propose` when it hands the slot
out or by `becomeLeader` when it recovers it; `issued` lists the entries for which `replicate` wrote
the leader's own vote and broadcast an ACCEPT. A `Job` likewise remembers the ballot its slot was
fixed under, which the source does not.
-/

namespace PaxosPayments.Paxos

/-- The peers of a group, the same on every replica. -/
structure Config where
  peers : List NodeID
  nodup : peers.Nodup

def Config.quorum (cfg : Config) : ℕ := majority cfg.peers.length

/-- Who called `replicate`: a `Propose` call, or the recovery loop of `becomeLeader`. -/
inductive Caller
  | propose
  | recovery (best : ℕ → Option Entry) (maxSlot : ℕ)

/-- A goroutine that is about to call `replicate`. -/
structure Job where
  owner : NodeID
  caller : Caller
  slot : ℕ
  command : Command
  /-- The ballot the owner led under when the slot was fixed. -/
  under : Ballot

/-- A campaign that has chosen its ballot and is about to promise it. -/
structure Candidacy where
  owner : NodeID
  next : Ballot
  deriving DecidableEq

/-- What a broadcast is for. -/
inductive Task
  /-- The probe of `canReachQuorum`, at the start of a campaign. -/
  | probe
  | prepare (next : Ballot) (first : ℕ)
  | accept (entry : Entry) (job : Job)
  | heartbeat (ballot : Ballot) (commitIndex : ℕ)
  | catchUp (first commitIndex : ℕ)

/-- The request that is sent for a task. -/
def Task.request (owner : NodeID) : Task → Message
  | probe => { kind := .ping, sender := owner }
  | prepare next first => { kind := .prepare, sender := owner, ballot := next, slot := first }
  | accept entry _ =>
    { kind := .accept, sender := owner, ballot := entry.ballot, slot := entry.slot,
      command := entry.command }
  | heartbeat ballot commitIndex =>
    { kind := .commit, sender := owner, ballot := ballot, commitIndex := commitIndex }
  | catchUp first _ => { kind := .catchUp, sender := owner, slot := first }

/-- One `Send`: the request is under way, or handled with the reply under way, or the reply is
collected. -/
inductive Rpc
  | idle
  | sent
  | answered (reply : Message)
  | collected
  deriving DecidableEq

structure Round where
  owner : NodeID
  task : Task
  rpc : NodeID → Rpc
  /-- The replies collected, in order of arrival. -/
  replies : List Message
  concluded : Bool

namespace Round

/-- The request to `p` has been handled. -/
def answer (r : Round) (p : NodeID) (reply : Message) : Round :=
  { r with rpc := Function.update r.rpc p (.answered reply) }

/-- The reply of `p` has arrived. -/
def collect (r : Round) (p : NodeID) (reply : Message) : Round :=
  { r with rpc := Function.update r.rpc p .collected, replies := r.replies ++ [reply] }

/-- The owner no longer waits. -/
def close (r : Round) : Round := { r with concluded := true }

end Round

structure ReplicaGroup where
  nodes : NodeID → Node
  rounds : ℕ → Option Round
  jobs : ℕ → Option Job
  candidacies : ℕ → Option Candidacy
  /-- The number of the next round, job or candidacy. -/
  fresh : ℕ
  assigned : List Entry
  issued : List Entry

namespace ReplicaGroup

/-- A group at start-up. -/
def init : ReplicaGroup where
  nodes := fun _ => Node.fresh
  rounds := fun _ => none
  jobs := fun _ => none
  candidacies := fun _ => none
  fresh := 0
  assigned := []
  issued := []

/-! ## Elementary updates -/

def setNode (g : ReplicaGroup) (id : NodeID) (n : Node) : ReplicaGroup :=
  { g with nodes := Function.update g.nodes id n }

def setRound (g : ReplicaGroup) (rid : ℕ) (r : Round) : ReplicaGroup :=
  { g with rounds := Function.update g.rounds rid (some r) }

/-- Start a round with a request under way to each of the given peers. -/
def openRound (g : ReplicaGroup) (owner : NodeID) (targets : List NodeID) (task : Task) :
    ReplicaGroup :=
  { g.setRound g.fresh
      { owner := owner, task := task, rpc := fun p => if p ∈ targets then .sent else .idle,
        replies := [], concluded := false }
    with fresh := g.fresh + 1 }

/-- `broadcast`: to every peer but the sender. -/
def broadcast (cfg : Config) (g : ReplicaGroup) (owner : NodeID) (task : Task) : ReplicaGroup :=
  g.openRound owner (cfg.peers.filter (· ≠ owner)) task

def addJob (g : ReplicaGroup) (j : Job) : ReplicaGroup :=
  { g with jobs := Function.update g.jobs g.fresh (some j), fresh := g.fresh + 1 }

def dropJob (g : ReplicaGroup) (jid : ℕ) : ReplicaGroup :=
  { g with jobs := Function.update g.jobs jid none }

def addCandidacy (g : ReplicaGroup) (c : Candidacy) : ReplicaGroup :=
  { g with candidacies := Function.update g.candidacies g.fresh (some c), fresh := g.fresh + 1 }

def dropCandidacy (g : ReplicaGroup) (cid : ℕ) : ReplicaGroup :=
  { g with candidacies := Function.update g.candidacies cid none }

def assign (g : ReplicaGroup) (es : List Entry) : ReplicaGroup :=
  { g with assigned := es ++ g.assigned }

def issue (g : ReplicaGroup) (e : Entry) : ReplicaGroup := { g with issued := e :: g.issued }

@[simp] theorem setRound_nodes (g : ReplicaGroup) (rid : ℕ) (r : Round) :
    (g.setRound rid r).nodes = g.nodes := rfl

@[simp] theorem openRound_nodes (g : ReplicaGroup) (owner : NodeID) (targets : List NodeID)
    (task : Task) : (g.openRound owner targets task).nodes = g.nodes := rfl

@[simp] theorem broadcast_nodes (cfg : Config) (g : ReplicaGroup) (owner : NodeID) (task : Task) :
    (g.broadcast cfg owner task).nodes = g.nodes := rfl

/-- A round that has not been concluded. -/
def pending (g : ReplicaGroup) (rid : ℕ) : Option Round :=
  match g.rounds rid with
  | some r => if r.concluded then none else some r
  | none => none

/-- `stepDown(Ballot{})`. -/
def demote (g : ReplicaGroup) (id : NodeID) : ReplicaGroup :=
  g.setNode id ((g.nodes id).stepDown Ballot.zero 0)

/-! ## Phase 1 -/

/-- `campaign`, up to the probe. -/
def campaign (cfg : Config) (g : ReplicaGroup) (id : NodeID) : Option ReplicaGroup :=
  if id ∉ cfg.peers ∨ (g.nodes id).role = .leader then none
  else
    some ((g.setNode id { g.nodes id with role := .candidate }).broadcast cfg id .probe)

/-- The rest of the probe, up to the choice of the ballot. -/
def afterProbe (cfg : Config) (g : ReplicaGroup) (id : NodeID) (replies : List Message) :
    ReplicaGroup :=
  if replies.length + 1 < cfg.quorum then g.demote id
  else if (g.nodes id).role ≠ .candidate then g
  else g.addCandidacy ⟨id, ⟨uint64Succ (g.nodes id).log.promised.num, id⟩⟩

/-- The promise of the ballot, and the PREPARE. -/
def sendPrepare (cfg : Config) (g : ReplicaGroup) (c : Candidacy) (disk : ℕ) : ReplicaGroup :=
  if disk = 0 then g.demote c.owner
  else
    let n := (g.nodes c.owner).promise c.next
    (g.setNode c.owner n).broadcast cfg c.owner (.prepare c.next (uint64Succ n.appliedIndex))

/-- The votes of a round: this replica's own and the positive replies. -/
def votes (replies : List Message) : ℕ := 1 + (replies.filter (·.ok)).length

/-- The highest ballot among the campaign's own and those of the refusals. -/
def highest (next : Ballot) (replies : List Message) : Ballot :=
  replies.foldl (fun h r => if r.ok then h else if h.less r.ballot then r.ballot else h) next

/-- The entries of this replica and of the promises. -/
def gathered (n : Node) (first : ℕ) (replies : List Message) : List Entry :=
  n.log.entriesFrom first ++ (replies.filter (·.ok)).flatMap (·.entries)

/-- The entries a recovery re-proposes. -/
def recovered (best : ℕ → Option Entry) (b : Ballot) (first maxSlot : ℕ) : List Entry :=
  (List.range' first (maxSlot + 1 - first)).map fun s =>
    ⟨s, b, Node.recoveredCommand best s⟩

/-- A lost campaign adopts a higher ballot it was refused with. -/
def loseCampaign (g : ReplicaGroup) (id : NodeID) (next : Ballot) (replies : List Message)
    (disk : ℕ) : ReplicaGroup :=
  let n := g.nodes id
  let h := highest next replies
  (g.setNode id (if next.less h ∧ disk ≠ 0 then n.promise h else n)).demote id

/-- A won campaign: `becomeLeader`, with its recovery goroutine. -/
def winCampaign (g : ReplicaGroup) (id : NodeID) (next : Ballot) (first : ℕ)
    (replies : List Message) : ReplicaGroup :=
  let n := g.nodes id
  let best := (Node.gather first (gathered n first replies)).1
  let maxSlot := (Node.gather first (gathered n first replies)).2
  let g' := (g.setNode id (n.becomeLeader id next first maxSlot)).assign
    (recovered best next first maxSlot)
  if first ≤ maxSlot then
    g'.addJob ⟨id, .recovery best maxSlot, first, Node.recoveredCommand best first, next⟩
  else g'

@[simp] theorem winCampaign_nodes (g : ReplicaGroup) (id : NodeID) (next : Ballot) (first : ℕ)
    (replies : List Message) :
    (g.winCampaign id next first replies).nodes = (g.setNode id ((g.nodes id).becomeLeader id next
      first (Node.gather first (gathered (g.nodes id) first replies)).2)).nodes := by
  unfold winCampaign
  dsimp only
  split_ifs <;> rfl

@[simp] theorem winCampaign_rounds (g : ReplicaGroup) (id : NodeID) (next : Ballot) (first : ℕ)
    (replies : List Message) : (g.winCampaign id next first replies).rounds = g.rounds := by
  unfold winCampaign
  dsimp only
  split_ifs <;> rfl

@[simp] theorem winCampaign_assigned (g : ReplicaGroup) (id : NodeID) (next : Ballot) (first : ℕ)
    (replies : List Message) :
    (g.winCampaign id next first replies).assigned =
      recovered (Node.gather first (gathered (g.nodes id) first replies)).1 next first
        (Node.gather first (gathered (g.nodes id) first replies)).2 ++ g.assigned := by
  unfold winCampaign
  dsimp only
  split_ifs <;> rfl

/-- The conclusion of a campaign. -/
def tally (cfg : Config) (g : ReplicaGroup) (id : NodeID) (next : Ballot) (first : ℕ)
    (replies : List Message) (disk : ℕ) : ReplicaGroup :=
  if votes replies < cfg.quorum then g.loseCampaign id next replies disk
  else g.winCampaign id next first replies

/-! ## Phase 2 -/

/-- `Propose`, up to the slot it hands out. -/
def propose (cfg : Config) (g : ReplicaGroup) (id : NodeID) (command : Command) :
    Option ReplicaGroup :=
  let n := g.nodes id
  if id ∉ cfg.peers ∨ n.role ≠ .leader then none
  else
    some (((g.setNode id { n with nextSlot := uint64Succ n.nextSlot }).assign
      [⟨n.nextSlot, n.ballot, command⟩]).addJob ⟨id, .propose, n.nextSlot, command, n.ballot⟩)

/-- `replicate` returned an error: `Propose` steps down, a recovery just ends. -/
def fail (g : ReplicaGroup) (j : Job) : ReplicaGroup :=
  match j.caller with
  | .propose => g.demote j.owner
  | .recovery _ _ => g

/-- The start of `replicate`: this replica's own vote, and the ACCEPT. -/
def startReplicate (cfg : Config) (g : ReplicaGroup) (j : Job) (disk : ℕ) : ReplicaGroup :=
  let n := g.nodes j.owner
  if n.role ≠ .leader then g.fail j
  else if disk = 0 then g.fail j
  else
    let entry : Entry := ⟨j.slot, n.ballot, j.command⟩
    ((g.setNode j.owner (n.vote entry)).issue entry).broadcast cfg j.owner (.accept entry j)

/-- A recovery goes on with its next slot. -/
def continueJob (g : ReplicaGroup) (j : Job) : ReplicaGroup :=
  match j.caller with
  | .propose => g
  | .recovery best maxSlot =>
    if uint64Succ j.slot ≤ maxSlot then
      g.addJob { j with
        slot := uint64Succ j.slot
        command := Node.recoveredCommand best (uint64Succ j.slot) }
    else g

@[simp] theorem continueJob_nodes (g : ReplicaGroup) (j : Job) :
    (g.continueJob j).nodes = g.nodes := by
  unfold continueJob
  cases j.caller with
  | propose => rfl
  | recovery best maxSlot =>
    dsimp only
    split_ifs <;> rfl

@[simp] theorem continueJob_rounds (g : ReplicaGroup) (j : Job) :
    (g.continueJob j).rounds = g.rounds := by
  unfold continueJob
  cases j.caller with
  | propose => rfl
  | recovery best maxSlot =>
    dsimp only
    split_ifs <;> rfl

@[simp] theorem continueJob_assigned (g : ReplicaGroup) (j : Job) :
    (g.continueJob j).assigned = g.assigned := by
  unfold continueJob
  cases j.caller with
  | propose => rfl
  | recovery best maxSlot =>
    dsimp only
    split_ifs <;> rfl

/-- A refusal that carries a ballot above `b`. -/
def superseding (b : Ballot) (replies : List Message) : Option Message :=
  replies.find? fun r => !r.ok && b.less r.ballot

/-- The conclusion of `replicate`. -/
def concludeReplicate (cfg : Config) (g : ReplicaGroup) (entry : Entry) (j : Job)
    (replies : List Message) (disk : ℕ) : ReplicaGroup :=
  match superseding entry.ballot replies with
  | some r => (g.setNode j.owner ((g.nodes j.owner).stepDown r.ballot disk)).fail j
  | none =>
    if votes replies < cfg.quorum then g.fail j
    else (g.setNode j.owner ((g.nodes j.owner).markCommitted [entry.slot])).continueJob j

/-! ## Heartbeats -/

/-- `broadcastCommit`, up to its broadcast. -/
def heartbeat (cfg : Config) (g : ReplicaGroup) (id : NodeID) : Option ReplicaGroup :=
  let n := g.nodes id
  if id ∉ cfg.peers ∨ n.role ≠ .leader then none
  else
    some (g.broadcast cfg id (.heartbeat n.ballot n.appliedIndex))

/-- The end of `broadcastCommit`; `expired` says whether the last quorum is too long ago. -/
def concludeHeartbeat (cfg : Config) (g : ReplicaGroup) (id : NodeID) (b : Ballot)
    (replies : List Message) (expired : Bool) (disk : ℕ) : ReplicaGroup :=
  match superseding b replies with
  | some r => g.setNode id ((g.nodes id).stepDown r.ballot disk)
  | none =>
    if cfg.quorum ≤ votes replies then g
    else if (g.nodes id).role = .leader ∧ expired = true then g.demote id
    else g

/-! ## The network -/

/-- A request is handled. A heartbeat may start a catch-up. -/
def deliver (g : ReplicaGroup) (rid : ℕ) (p : NodeID) (disk : ℕ) : Option ReplicaGroup :=
  match g.rounds rid with
  | none => none
  | some r =>
    if r.rpc p ≠ .sent then none
    else
      let out := (g.nodes p).handle p (r.task.request r.owner) disk
      let g' := (g.setNode p out.1).setRound rid (r.answer p out.2.1)
      match out.2.2 with
      | none => some g'
      | some f =>
        some (g'.openRound p [f.source] (.catchUp f.first f.commitIndex))

/-- A reply reaches the goroutine that waits for it. -/
def collect (g : ReplicaGroup) (rid : ℕ) (p : NodeID) : Option ReplicaGroup :=
  match g.pending rid with
  | none => none
  | some r =>
    match r.rpc p with
    | .answered reply => some (g.setRound rid (r.collect p reply))
    | _ => none

/-- The goroutine that waits for a round goes on: all replies are in, or the timeout has passed. -/
def conclude (cfg : Config) (g : ReplicaGroup) (rid : ℕ) (expired : Bool) (disk : ℕ) :
    Option ReplicaGroup :=
  match g.pending rid with
  | none => none
  | some r =>
    let g' := g.setRound rid r.close
    match r.task with
    | .probe => some (g'.afterProbe cfg r.owner r.replies)
    | .prepare next first => some (g'.tally cfg r.owner next first r.replies disk)
    | .accept entry j => some (g'.concludeReplicate cfg entry j r.replies disk)
    | .heartbeat b _ => some (g'.concludeHeartbeat cfg r.owner b r.replies expired disk)
    | .catchUp first commitIndex =>
      some (g'.setNode r.owner
        ((g'.nodes r.owner).concludeCatchUp first commitIndex r.replies.head? disk))

/-! ## The transition system -/

inductive Action
  /-- The election timer fires, or `Campaign` is called. -/
  | campaign (id : NodeID)
  | prepare (cid : ℕ) (disk : ℕ)
  | propose (id : NodeID) (command : Command)
  | replicate (jid : ℕ) (disk : ℕ)
  | heartbeat (id : NodeID)
  | apply (id : NodeID)
  | deliver (rid : ℕ) (p : NodeID) (disk : ℕ)
  | collect (rid : ℕ) (p : NodeID)
  | conclude (rid : ℕ) (expired : Bool) (disk : ℕ)

def step (cfg : Config) (g : ReplicaGroup) : Action → Option ReplicaGroup
  | .campaign id => g.campaign cfg id
  | .prepare cid disk =>
    match g.candidacies cid with
    | none => none
    | some c => some ((g.dropCandidacy cid).sendPrepare cfg c disk)
  | .propose id command => g.propose cfg id command
  | .replicate jid disk =>
    match g.jobs jid with
    | none => none
    | some j => some ((g.dropJob jid).startReplicate cfg j disk)
  | .heartbeat id => g.heartbeat cfg id
  | .apply id =>
    match (g.nodes id).applyNext with
    | none => none
    | some n => some (g.setNode id n)
  | .deliver rid p disk => g.deliver rid p disk
  | .collect rid p => g.collect rid p
  | .conclude rid expired disk => g.conclude cfg rid expired disk

end ReplicaGroup

end PaxosPayments.Paxos
