import PaxosPayments.Foundations.Linearization
import PaxosPayments.Paxos.Applied

/-!
# A replicated machine and its callers

The replicas of a group, each with a copy of one state machine, as the callers of `Propose` see
them. A call hands out a slot, replicates its command and waits for what the apply loop sends to its
slot. It fails when its replica does not lead, when the entry cannot be written, when the round is
superseded or finds no quorum, and when its context ends or the replica is stopped while it waits. A
call that fails may have its command applied all the same, now or later.

One round of the apply loop is one step: the command is applied, and the result goes to whoever has
its place in `results`. `Replicated.clock`, the times of a call and the ballot in `Ticket.place` are
not in the source and nothing reads them. They tell the order of calls and returns, and under which
ballot the slot of a call was handed out.
-/

namespace PaxosPayments.Paxos

/-- A state machine whose commands are written to the log as bytes. -/
structure StateMachine (α σ ρ : Type*) where
  encode : α → Command
  /-- `Apply`, on the bytes of a slot. -/
  apply : σ → Command → σ × ρ
  /-- `Apply`, on a command. -/
  step : σ → α → σ × ρ
  encode_ne_nil : ∀ c, encode c ≠ []
  apply_encode : ∀ s c, apply s (encode c) = step s c

/-- One slot of the log. A no-op is not passed to the machine, and its result is `nil`. -/
def StateMachine.applyEntry {α σ ρ : Type*} (sm : StateMachine α σ ρ) (s : σ) (raw : Command) :
    σ × Option ρ :=
  if raw = [] then (s, none) else ((sm.apply s raw).1, some (sm.apply s raw).2)

/-! ## Calls -/

/-- The errors of `Propose`. -/
inductive ProposeError
  /-- `ErrNotLeader`; a replica that does not lead names the leader it knows of. -/
  | notLeader (leader : Option NodeID)
  | noQuorum
  /-- The entry cannot be written. -/
  | persist (err : String)
  | deadlineExceeded
  | canceled
  | stopped
  deriving DecidableEq

/-- The errors that end a call while it waits for its result. -/
def ProposeError.endsWait : ProposeError → Bool
  | deadlineExceeded | canceled | stopped => true
  | _ => false

/-- The error with which the conclusion of a round ends the `replicate` that waits for it. -/
def replicateError (cfg : Config) (g : ReplicaGroup) (rid : ℕ) : Option ProposeError :=
  match g.pending rid with
  | none => none
  | some r =>
    match r.task with
    | .accept entry _ =>
      match ReplicaGroup.superseding entry.ballot r.replies with
      | some _ => some (.notLeader none)
      | none => if ReplicaGroup.votes r.replies < cfg.quorum then some .noQuorum else none
    | _ => none

/-- Where a call of `Propose` is. -/
inductive CallStage (ρ : Type*)
  /-- It is about to call `replicate`. -/
  | starting (jid : ℕ)
  /-- Its ACCEPT has been sent. -/
  | sent (rid : ℕ)
  /-- It waits for the result of its slot. -/
  | waiting
  | failed (err : ProposeError)
  | returned (time : ℕ) (result : Option ρ)
  deriving DecidableEq

/-- What a call keeps. -/
structure Ticket (α : Type*) where
  node : NodeID
  command : α
  called : ℕ
  /-- The slot that was handed out, and the ballot under which. A call that is refused at once has
  none. -/
  place : Option (ℕ × Ballot)
  deriving DecidableEq

structure Call (α ρ : Type*) extends Ticket α where
  stage : CallStage ρ
  /-- What the apply loop has sent. -/
  channel : Option (Option ρ)
  deriving DecidableEq

namespace Call

variable {α ρ : Type*} (cfg : Config) (g : ReplicaGroup) (a : ReplicaGroup.Action) (text : String)

/-- The error with which `replicate` ends in a step of the group; `text` is that of a failed write.
-/
def failure (c : Call α ρ) : Option ProposeError :=
  match c.stage, a with
  | .starting jid, .replicate k disk =>
    if k ≠ jid then none
    else if (g.nodes c.node).role ≠ .leader then some (.notLeader none)
    else if disk = 0 then some (.persist text)
    else none
  | .sent rid, .conclude k _ _ => if k = rid then replicateError cfg g rid else none
  | _, _ => none

/-- Where a call is after a step of the group. -/
def next (c : Call α ρ) : CallStage ρ :=
  match c.failure cfg g a text with
  | some err => .failed err
  | none =>
    match c.stage, a with
    | .starting jid, .replicate k _ => if k = jid then .sent g.fresh else c.stage
    | .sent rid, .conclude k _ _ => if k = rid then .waiting else c.stage
    | _, _ => c.stage

def advance (c : Call α ρ) : Call α ρ := { c with stage := c.next cfg g a text }

/-- A call as an operation of a history. -/
def operation (c : Call α ρ) : Linear.Operation α ρ where
  command := c.command
  called := c.called
  returned :=
    match c.stage with
    | .returned time (some r) => some (time, r)
    | _ => none

end Call

/-! ## The replicas -/

structure Replicated (α σ ρ : Type*) where
  group : ReplicaGroup
  machines : NodeID → σ
  /-- `Node.results`, with calls for channels. -/
  results : NodeID → ℕ → Option ℕ
  calls : List (Call α ρ)
  /-- The number of steps taken. -/
  clock : ℕ

namespace Replicated

variable {α σ ρ : Type*}

/-- Replicas with the same machine and empty logs. -/
def init (start : σ) : Replicated α σ ρ where
  group := .init
  machines := fun _ => start
  results := fun _ _ => none
  calls := []
  clock := 0

/-- The calls as a history of operations. -/
def operations (s : Replicated α σ ρ) : List (Linear.Operation α ρ) := s.calls.map Call.operation

inductive Action (α : Type*)
  /-- `Propose` is called. -/
  | propose (id : NodeID) (command : α)
  /-- A step of the group other than a proposal; `text` is the error of a failed write. -/
  | group (a : ReplicaGroup.Action) (text : String)
  /-- A call takes its result. -/
  | respond (k : ℕ)
  /-- A call is given up: its context has ended, or the replica is stopped. -/
  | expire (k : ℕ) (err : ProposeError)

section

variable (cfg : Config) (sm : StateMachine α σ ρ) (s : Replicated α σ ρ)

def tick : Replicated α σ ρ := { s with clock := s.clock + 1 }

/-- `Propose`, up to the slot that it hands out. -/
def propose (id : NodeID) (c : α) : Replicated α σ ρ :=
  match s.group.propose cfg id (sm.encode c) with
  | none =>
    let err := ProposeError.notLeader (some (s.group.nodes id).leader)
    { s with calls := s.calls ++ [⟨⟨id, c, s.clock, none⟩, .failed err, none⟩] }
  | some g =>
    let n := s.group.nodes id
    { s with
      group := g
      results := Function.update s.results id
        (Function.update (s.results id) n.nextSlot (some s.calls.length))
      calls := s.calls ++
        [⟨⟨id, c, s.clock, some (n.nextSlot, n.ballot)⟩, .starting s.group.fresh, none⟩] }

/-- The calls go on with a step of the group. One that fails gives up its place in `results`. -/
def proceed (a : ReplicaGroup.Action) (text : String) (g : ReplicaGroup) : Replicated α σ ρ :=
  { s with
    group := g
    results := fun id slot =>
      if s.calls.any fun c => c.node = id && c.place.map Prod.fst = some slot &&
        (c.failure cfg s.group a text).isSome then none
      else s.results id slot
    calls := s.calls.map (Call.advance cfg s.group a text) }

/-- The end of a round of the apply loop: the result of `slot` goes to whoever waits for it. -/
def deliver (id : NodeID) (slot : ℕ) (res : Option ρ) : Replicated α σ ρ :=
  { s with
    results := Function.update s.results id (Function.update (s.results id) slot none)
    calls :=
      match s.results id slot with
      | none => s.calls
      | some k => s.calls.modify k fun c => { c with channel := some res } }

/-- A round of the apply loop, which leaves the group as `g`. -/
def apply (id : NodeID) (g : ReplicaGroup) : Replicated α σ ρ :=
  let slot := uint64Succ (s.group.nodes id).appliedIndex
  match (s.group.nodes id).log.entries slot with
  | none => { s with group := g }
  | some e =>
    let out := sm.applyEntry (s.machines id) e.command
    { s with group := g, machines := Function.update s.machines id out.1 }.deliver id slot out.2

/-- What a step that leaves the group as `g` is for the callers. Proposals come from calls. -/
def follow (a : ReplicaGroup.Action) (text : String) (g : ReplicaGroup) :
    Option (Replicated α σ ρ) :=
  match a with
  | .propose _ _ => none
  | .apply id => some (s.apply sm id g)
  | _ => some (s.proceed cfg a text g)

/-- A call that waits is ended. -/
def finish (k : ℕ) (c : Call α ρ) (stage : CallStage ρ) : Replicated α σ ρ :=
  { s with calls := s.calls.set k { c with stage := stage } }

/-- One step, without the clock. -/
def move : Action α → Option (Replicated α σ ρ)
  | .propose id c => some (s.propose cfg sm id c)
  | .group a text => (s.group.step cfg a).bind (s.follow cfg sm a text)
  | .respond k =>
    match s.calls[k]? with
    | none => none
    | some c =>
      match c.stage, c.channel with
      | .waiting, some res => some (s.finish k c (.returned s.clock res))
      | _, _ => none
  | .expire k err =>
    match s.calls[k]? with
    | none => none
    | some c =>
      match c.stage with
      | .waiting => if err.endsWait then some (s.finish k c (.failed err)) else none
      | _ => none

def step (a : Action α) : Option (Replicated α σ ρ) := (s.move cfg sm a).map tick

end

end Replicated

end PaxosPayments.Paxos
