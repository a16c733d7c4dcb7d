import PaxosPayments.Bank.Codec
import PaxosPayments.Paxos.Applied

/-!
# The service of a bank

`service.go`: the replicas of one bank, as its callers see them. A `PREPARE`, `COMMIT` or `ABORT`
that reaches a replica is a call of `Propose`, which hands out a slot, replicates the command and
waits for the result of its slot. `GetBalance` asks whether the replica leads and reads its own
store.

A `Service` is the group of `Paxos` with a participant at every replica. One round of the apply loop
is one step: the command is applied, and its result is sent to whoever waits for the slot. Of
`GetBalance` the two checks are one step, and the read another. A replica that its operator has
switched off (`health.go`) refuses calls and does not answer its peers.

`Service.acknowledged` is not in the source. It lists the commits that were answered with success,
and a `Read` remembers the list as it was when the call began, and the log that its replica had
applied when it read.
-/

namespace PaxosPayments.Bank

open Paxos (NodeID Config ReplicaGroup)

/-- `DebitCreditRequest`. -/
structure Request where
  transactionID : String
  accountID : String
  counterpartyAccount : String
  amount : ℚ

/-- The command that a handler proposes. -/
def Request.command (req : Request) (kind : CmdKind) (op : Operation) : Command :=
  ⟨kind, transactionKey req.transactionID op, op, req.accountID, req.counterpartyAccount,
    req.amount⟩

/-! ## Errors -/

/-- `health.check`. -/
def offline (name : String) : Status := ⟨.unavailable, "bank " ++ name ++ " is offline"⟩

/-- An error of `Propose`, as `bankService.propose` reports it. -/
def unavailable (name err : String) : Status := ⟨.unavailable, "bank " ++ name ++ ": " ++ err⟩

def notLeader : String := "paxos: not the leader"

def noQuorum : String := "paxos: no quorum"

/-- The error with which the conclusion of a round ends the `replicate` that waits for it. -/
def replicateError (cfg : Config) (g : ReplicaGroup) (rid : ℕ) : Option String :=
  match g.pending rid with
  | none => none
  | some r =>
    match r.task with
    | .accept entry _ =>
      match ReplicaGroup.superseding entry.ballot r.replies with
      | some _ => some notLeader
      | none => if ReplicaGroup.votes r.replies < cfg.quorum then some noQuorum else none
    | _ => none

/-! ## Calls -/

/-- Where a call of `Propose` is. -/
inductive Stage
  /-- It is about to call `replicate`. -/
  | starting (jid : ℕ)
  /-- Its ACCEPT has been sent. -/
  | sent (rid : ℕ)
  /-- It waits for its result. -/
  | waiting
  | returned (reply : Except Status String)

/-- A call of a handler. One that is refused at once has no slot. -/
structure Call where
  node : NodeID
  command : Command
  slot : ℕ
  stage : Stage
  /-- What the apply loop has sent. -/
  channel : Option (Option ApplyResult)

/-- A commit that was answered with success, and whether the answer was that it had been settled
before. -/
structure Acknowledgement where
  command : Command
  settled : Bool
  deriving DecidableEq

namespace Call

variable (cfg : Config) (name : String) (g : ReplicaGroup) (a : ReplicaGroup.Action) (text : String)

/-- The error with which `replicate` ends in a step of the group; `text` is that of a failed write.
-/
def failure (c : Call) : Option String :=
  match c.stage, a with
  | .starting jid, .replicate k disk =>
    if k ≠ jid then none
    else if (g.nodes c.node).role ≠ .leader then some notLeader
    else if disk = 0 then some ("paxos: persist entry: " ++ text)
    else none
  | .sent rid, .conclude k _ _ => if k = rid then replicateError cfg g rid else none
  | _, _ => none

/-- Where a call is after a step of the group. -/
def next (c : Call) : Stage :=
  match c.failure cfg g a text with
  | some err => .returned (.error (unavailable name err))
  | none =>
    match c.stage, a with
    | .starting jid, .replicate k _ => if k = jid then .sent g.fresh else c.stage
    | .sent rid, .conclude k _ _ => if k = rid then .waiting else c.stage
    | _, _ => c.stage

def advance (c : Call) : Call := { c with stage := c.next cfg name g a text }

/-- What a handler answers to the result of its command. -/
def reply (c : Call) : Option ApplyResult → Except Status String
  | none => .error ⟨.internal, "bank " ++ name ++ ": unexpected result type <nil>"⟩
  | some res =>
    match res.err with
    | some e => .error e
    | none =>
      .ok (c.command.op.text ++
        match c.command.kind with
        | .prepare => " prepared"
        | .commit => if res.alreadySettled then " already processed" else " committed"
        | .abort => " aborted")

/-- A result that acknowledges a commit. -/
def acknowledgement (c : Call) : Option ApplyResult → Option Acknowledgement
  | none => none
  | some res =>
    if c.command.kind = .commit ∧ res.err = none then some ⟨c.command, res.alreadySettled⟩
    else none

end Call

/-- A call of `GetBalance`. -/
structure Read where
  node : NodeID
  account : String
  /-- The commits that had been acknowledged when the call began. -/
  acknowledged : List Acknowledgement
  answer : Option (Except Status ℚ)
  /-- What its replica had applied when the balance was read. -/
  seen : List (ℕ × Paxos.Command)
  deriving DecidableEq

/-! ## The replicas of a bank -/

structure Service where
  group : ReplicaGroup
  banks : NodeID → Participant
  /-- The switch of the operator. -/
  active : NodeID → Bool
  /-- `Node.results`, with calls for channels. -/
  results : NodeID → ℕ → Option ℕ
  calls : List Call
  acknowledged : List Acknowledgement
  reads : List Read

namespace Service

/-- The start of a bank whose replicas have the same files. -/
def init (store : Store) (ledger : Ledger) : Service where
  group := .init
  banks := fun _ => newParticipant store ledger
  active := fun _ => true
  results := fun _ _ => none
  calls := []
  acknowledged := []
  reads := []

inductive Action
  | setHealth (id : NodeID) (active : Bool)
  /-- A handler is called. -/
  | request (id : NodeID) (kind : CmdKind) (op : Operation) (req : Request)
  /-- A step of the group other than a proposal; `text` is the error of a failed write. -/
  | group (a : ReplicaGroup.Action) (text : String)
  /-- A call takes its result. -/
  | respond (k : ℕ)
  /-- A call is given up: `ctx.Err()`, or the node is stopped. -/
  | expire (k : ℕ) (err : String)
  /-- `GetBalance` is called. -/
  | getBalance (id : NodeID) (account : String)
  /-- `GetBalance` reads its store; `fault` is the error if the file cannot be read. -/
  | finish (i : ℕ) (fault : Option String)

section

variable (cfg : Config) (codec : Codec) (name : String) (s : Service)

def addCall (c : Call) : Service := { s with calls := s.calls ++ [c] }

/-- The handlers of the three operations, up to the slot that `Propose` hands out. `ABORT` does not
look at the switch. -/
def request (id : NodeID) (c : Command) : Service :=
  if c.kind ≠ .abort ∧ s.active id = false then
    s.addCall ⟨id, c, 0, .returned (.error (offline name)), none⟩
  else
    match s.group.propose cfg id (codec.encode c) with
    | none =>
      let leader := (s.group.nodes id).leader
      let err := notLeader ++ " (try " ++ Quoted.quote leader ++ ")"
      s.addCall ⟨id, c, 0, .returned (.error (unavailable name err)), none⟩
    | some g =>
      let slot := (s.group.nodes id).nextSlot
      { s with
        group := g
        results := Function.update s.results id
          (Function.update (s.results id) slot (some s.calls.length))
        calls := s.calls ++ [⟨id, c, slot, .starting s.group.fresh, none⟩] }

/-- A request to a replica that is switched off is not handled. -/
def cutOff : ReplicaGroup.Action → Bool
  | .deliver _ p _ => !s.active p
  | _ => false

/-- The calls go on with a step of the group. One that fails gives up its place in `results`. -/
def proceed (a : ReplicaGroup.Action) (text : String) (g : ReplicaGroup) : Service :=
  { s with
    group := g
    results := fun id slot =>
      if s.calls.any fun c => c.node = id && c.slot = slot &&
        (c.failure cfg s.group a text).isSome then none
      else s.results id slot
    calls := s.calls.map (Call.advance cfg name s.group a text) }

/-- The end of a round of the apply loop: the result of `slot` goes to whoever waits for it. -/
def deliver (id : NodeID) (slot : ℕ) (res : Option ApplyResult) : Service :=
  { s with
    results := Function.update s.results id (Function.update (s.results id) slot none)
    calls :=
      match s.results id slot with
      | none => s.calls
      | some k => s.calls.modify k fun c => { c with channel := some res } }

/-- A round of the apply loop, which leaves the group as `g`. -/
def apply (id : NodeID) (g : ReplicaGroup) : Service :=
  let slot := Paxos.uint64Succ (s.group.nodes id).appliedIndex
  match (s.group.nodes id).log.entries slot with
  | none => { s with group := g }
  | some e =>
    let out := (s.banks id).applyRaw codec e.command
    { s with group := g, banks := Function.update s.banks id out.1 }.deliver id slot out.2

/-- What a step that leaves the group as `g` is for the service. Proposals come from requests. -/
def follow (a : ReplicaGroup.Action) (text : String) (g : ReplicaGroup) : Option Service :=
  match a with
  | .propose _ _ => none
  | .apply id => some (s.apply codec id g)
  | _ => some (s.proceed cfg name a text g)

/-- `GetBalance`, up to the read. -/
def getBalance (id : NodeID) (account : String) : Read :=
  let refusal : Option Status :=
    if s.active id = false then some (offline name)
    else if (s.group.nodes id).role ≠ .leader then
      some (unavailable name "this replica is not the leader")
    else none
  ⟨id, account, s.acknowledged, refusal.map .error, []⟩

/-- The answer of `GetBalance`. -/
def balance (id : NodeID) (account : String) (fault : Option String) : Except Status ℚ :=
  match fault with
  | some err => .error ⟨.internal, "read account " ++ account ++ ": " ++ err⟩
  | none =>
    match (s.banks id).store.balance account with
    | none => .error ⟨.notFound, "account " ++ account ++ " does not exist at " ++ name⟩
    | some v => .ok v

def step : Action → Option Service
  | .setHealth id active => some { s with active := Function.update s.active id active }
  | .request id kind op req => some (s.request cfg codec name id (req.command kind op))
  | .group a text =>
    if s.cutOff a then none
    else (s.group.step cfg a).bind (s.follow cfg codec name a text)
  | .respond k =>
    match s.calls[k]? with
    | some ⟨id, c, slot, .waiting, some res⟩ =>
      let call : Call := ⟨id, c, slot, .waiting, some res⟩
      some { s with
        calls := s.calls.set k { call with stage := .returned (call.reply name res) }
        acknowledged := (call.acknowledgement res).toList ++ s.acknowledged }
    | _ => none
  | .expire k err =>
    match s.calls[k]? with
    | some ⟨id, c, slot, .waiting, channel⟩ =>
      let reply := Except.error (unavailable name err)
      some { s with calls := s.calls.set k ⟨id, c, slot, .returned reply, channel⟩ }
    | _ => none
  | .getBalance id account =>
    some { s with reads := s.reads ++ [s.getBalance name id account] }
  | .finish i fault =>
    match s.reads[i]? with
    | some ⟨id, account, acknowledged, none, _⟩ =>
      let r : Read := ⟨id, account, acknowledged, some (s.balance name id account fault),
        (s.group.nodes id).appliedLog⟩
      some { s with reads := s.reads.set i r }
    | _ => none

end

end Service

end PaxosPayments.Bank
