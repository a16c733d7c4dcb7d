import PaxosPayments.ControlPlane.Coordinator
import PaxosPayments.Foundations.Json
import PaxosPayments.Paxos.Calls

/-!
# A cluster of replicated shards

`Engine` over the replicas of its shards. What `Network` calls the execution of a request is a call
of `Engine.propose` here: it looks for the leader of the shard, proposes the command to the replica
it has found, and waits. The coordinator and its background retries are those of `Network`
(`Frontend.step`), up to the requests, and what they have sent comes back to them when the call of
`Propose` has returned (`Cluster.answer`).

Which replica `leaderFor` finds is left open, and so is the error that it returns. A replica in
another process may lose its connection to the gateway while it proposes. A gateway that is started
again finds the replicas as they are.

What matters of the encoding of commands are the laws of a `Codec`. `Codec.json` is that of the
source.
-/

namespace PaxosPayments.ControlPlane

open Paxos (NodeID Replicated StateMachine ProposeError)

variable {n : ℕ}

/-! ## The machine of a shard -/

/-- `Command.Encode` and `Decode`. -/
structure Codec where
  encode : Command → Paxos.Command
  decode : Paxos.Command → Except String Command
  decode_encode : ∀ c, decode (encode c) = .ok c
  encode_ne_nil : ∀ c, encode c ≠ []

namespace Codec

open Json.Value (omitEmpty)

def opOf (text : String) : Op :=
  ([.put, .get, .transfer, .prepare, .commit, .abort].find? fun op : Op => op.text = text).getD
    (.other text)

/-- An operation is its text. What has the text of a known operation and is another one, which no
text of the source is, is written as an object. -/
def putOp (op : Op) : Json.Value :=
  if opOf op.text = op then .text op.text else .object [("other", .text op.text)]

def getOp (v : Json.Value) : Option Op :=
  match v with
  | .number _ _ => none
  | .text text => some (opOf text)
  | .object _ => (v.read "other" (·.asText) "").map .other

/-- The fields of a command under the names of their tags. -/
def toJson (c : Command) : Json.Value :=
  .object <| List.flatten
    [[("op", putOp c.op)], omitEmpty "key" .text "" c.key, omitEmpty "to" .text "" c.toKey,
      omitEmpty "amount" (fun v => .number v.toInt 0) 0 c.amount, omitEmpty "tx" .text "" c.tx]

def ofJson (v : Json.Value) : Option Command := do
  return ⟨← v.read "op" getOp (.other ""), ← v.read "key" (·.asText) "",
    ← v.read "to" (·.asText) "", ← v.read "amount" (·.asInt.map (BitVec.ofInt 64)) 0,
    ← v.read "tx" (·.asText) ""⟩

theorem getOp_putOp (op : Op) : getOp (putOp op) = some op := by
  unfold putOp
  split_ifs with hknown
  · rw [getOp, hknown]
  · cases op with
    | other text => simp [getOp, Op.text]
    | _ => exact absurd (by decide) hknown

theorem ofJson_toJson (c : Command) : ofJson (toJson c) = some c := by
  have htext (name t : String) :
      ((omitEmpty name .text "" t).lookup name).elim (some "") (·.asText) = some t :=
    Json.Value.elim_lookup_omitEmpty rfl
  simp [ofJson, toJson, getOp_putOp, Json.Value.read, List.lookup_cons, List.lookup_append,
    Json.Value.lookup_omitEmpty_of_ne, Json.Value.elim_lookup_omitEmpty, htext]

example : String.ofList (toJson ⟨.transfer, "alice", "bob", 5, ""⟩).put =
    "\x7b\"op\":\"transfer\",\"key\":\"alice\",\"to\":\"bob\",\"amount\":5\x7d" := by
  decide +kernel

/-- `Command.Encode` and `Decode` of the source. What is not a command gets the error of a text that
ends too early. -/
def json : Codec where
  encode c := Json.marshal (toJson c)
  decode raw := ((Json.unmarshal raw).bind ofJson).elim (.error "unexpected end of JSON input") .ok
  decode_encode c := by
    rw [Json.unmarshal_marshal, Option.bind_some, ofJson_toJson]
    rfl
  encode_ne_nil c := by simp [Json.marshal, Json.toBytes, toJson, Json.Value.put]

end Codec

/-- `Machine.Apply`, without the number of the slot. -/
def Machine.apply (codec : Codec) (m : Machine) (raw : Paxos.Command) : Machine × Result :=
  match codec.decode raw with
  | .error text => (m, .refusal .badCommand ("ledger: decode command: " ++ text))
  | .ok c => m.applyLocked c

/-- The machine that the replicas of a shard have a copy of. -/
def shardMachine (codec : Codec) : StateMachine Command Machine Result where
  encode := codec.encode
  apply := Machine.apply codec
  step := Machine.applyLocked
  encode_ne_nil := codec.encode_ne_nil
  apply_encode m c := by rw [Machine.apply, codec.decode_encode]

/-! ## Texts -/

/-- The text of a number with its sign. -/
def signed (v : BitVec 64) : String := if v.slt 0 then decimal v else "+" ++ decimal v

/-- `Command.String`. -/
def Command.text (c : Command) : String :=
  match c.op with
  | .put => "put " ++ c.key ++ "=" ++ decimal c.amount
  | .get => "get " ++ c.key
  | .transfer => "transfer " ++ c.key ++ "->" ++ c.toKey ++ " " ++ decimal c.amount
  | .prepare => "prepare " ++ c.tx ++ " " ++ c.key ++ signed c.amount
  | .commit => "commit " ++ c.tx
  | .abort => "abort " ++ c.tx
  | .other text => text

/-- The text of an error of `Propose`. -/
def proposeText : ProposeError → String
  | .notLeader (some leader) => "paxos: not the leader (try " ++ Quoted.quote leader ++ ")"
  | .notLeader none => "paxos: not the leader"
  | .noQuorum => "paxos: no quorum"
  | .persist err => "paxos: persist entry: " ++ err
  | .deadlineExceeded => "context deadline exceeded"
  | .canceled => "context canceled"
  | .stopped => "paxos: node stopped"

/-- The error of `Engine.propose` when `Propose` fails. -/
def proposeFailure (s : Fin n) (c : Command) : ProposeError → String
  | .noQuorum | .deadlineExceeded =>
    participantName s ++ ": " ++ proposeText .noQuorum ++ " for " ++ c.text
  | .notLeader _ => participantName s ++ ": leadership moved mid-round (no leader), try again"
  | err => proposeText err

/-! ## The gateway process -/

/-- The coordinator and its retries. -/
structure Frontend (n : ℕ) where
  seq : UInt64
  closed : Bool
  incarnation : ℕ
  calls : List (Call n)
  retries : List Retry

def Network.frontend (net : Network n) : Frontend n :=
  ⟨net.seq, net.closed, net.incarnation, net.calls, net.retries⟩

/-- A network with nothing but a gateway. -/
def Frontend.network (f : Frontend n) : Network n :=
  ⟨fun _ => .new 0 ∅, f.seq, f.closed, f.incarnation, f.calls, f.retries, [], []⟩

/-- A step of the gateway, with the requests that it makes. -/
def Frontend.step (shardFor : String → Fin n) (f : Frontend n) (a : Network.Action) :
    Option (Frontend n × List (Flight n)) :=
  (f.network.step shardFor a).map fun net => (net.frontend, net.flights)

/-- The answer to its request reaches call `j`. -/
def Frontend.receive (f : Frontend n) (j turn : ℕ) (err : Option String) : Frontend n :=
  { f with calls := f.calls.modify j (Network.receive turn err) }

/-- The answer to its commit reaches retry `i`. -/
def Frontend.receiveRetry (f : Frontend n) (i turn : ℕ) (err : Option String) : Frontend n :=
  { f with retries := f.retries.modify i (Network.receiveRetry turn err) }

/-- A request has ended, and whoever waits for it goes on. -/
def Frontend.resume (shardFor : String → Fin n) (f : Frontend n) (request : Flight n)
    (err : Option String) : Option (Frontend n × List (Flight n)) :=
  match request.call, request.reply with
  | some j, .call turn => (f.receive j turn err).step shardFor (.answer j)
  | _, .retry i turn => (f.receiveRetry i turn err).step shardFor (.answerRetry i)
  | _, _ => some (f, [])

/-- The actions of the gateway that are not the end of a request. -/
def Network.Action.begins : Network.Action → Bool
  | .put _ _ | .get _ | .transfer _ _ _ | .tick _ | .stopRetry _ | .close | .restart => true
  | .execute _ | .lose _ | .answer _ | .fail _ _ | .answerRetry _ | .failRetry _ => false

/-! ## The cluster -/

/-- A call of `Engine.propose`. -/
structure Request (n : ℕ) extends Flight n where
  /-- The call of `Propose`, in the shard's group, when the leader has been found. -/
  ticket : Option ℕ
  /-- It has not returned. -/
  waits : Bool

structure Cluster (n : ℕ) where
  groups : Fin n → Replicated Command Machine Result
  front : Frontend n
  requests : List (Request n)

namespace Cluster

/-- Shards with some accounts, and a gateway that has just been started. -/
def init (maxKeys : ℕ) (balances : Fin n → Finmap fun _ : String => BitVec 64) : Cluster n where
  groups := fun s => .init (.new maxKeys (balances s))
  front := ⟨0, false, 0, [], []⟩
  requests := []

inductive Action (n : ℕ)
  | front (a : Network.Action)
  /-- `leaderFor` finds the replica, and the command is proposed there. -/
  | forward (i : ℕ) (id : NodeID)
  /-- `leaderFor` fails. -/
  | unled (i : ℕ) (err : String)
  /-- A step of the replicas of a shard. -/
  | shard (s : Fin n) (a : Paxos.Replicated.Action Command)
  /-- `Propose` has returned. -/
  | answer (i : ℕ)
  /-- The connection to the replica fails. -/
  | disconnect (i : ℕ) (err : String)

variable (cfg : Fin n → Paxos.Config) (codec : Codec) (shardFor : String → Fin n) (c : Cluster n)

/-- The gateway goes on as `f`, with some requests. -/
def send (f : Frontend n × List (Flight n)) : Cluster n :=
  { c with front := f.1, requests := c.requests ++ f.2.map (⟨·, none, true⟩) }

/-- Request `i`, so far `r`, returns. -/
def resume (i : ℕ) (r : Request n) (err : Option String) : Option (Cluster n) :=
  (c.front.resume shardFor r.toFlight err).map
    { c with requests := c.requests.set i { r with waits := false } }.send

/-- What `Engine.propose` returns when the call of `Propose` is at that stage. -/
def outcome (r : Request n) : Paxos.CallStage Result → Option (Option String)
  | .returned _ (some res) => some res.err
  | .returned _ none => some (some "unexpected apply result <nil>")
  | .failed err => some (some (proposeFailure r.shard r.command err))
  | _ => none

/-- The stage of the call of `Propose` of a request. -/
def stageOf (r : Request n) : Option (Paxos.CallStage Result) := do
  let k ← r.ticket
  let call ← (c.groups r.shard).calls[k]?
  return call.stage

def setGroup (s : Fin n) (g : Replicated Command Machine Result) : Cluster n :=
  { c with groups := Function.update c.groups s g }

/-- The command is proposed to replica `id`. -/
def forward (i : ℕ) (r : Request n) (id : NodeID) : Option (Cluster n) :=
  let group := c.groups r.shard
  (group.step (cfg r.shard) (shardMachine codec) (.propose id r.command)).map fun g =>
    { c with requests := c.requests.set i { r with ticket := some group.calls.length } }.setGroup
      r.shard g

/-- The requests that wait. -/
def waiting (i : ℕ) : Option (Request n) := c.requests[i]?.filter (·.waits)

def step : Action n → Option (Cluster n)
  | .front a => if a.begins then (c.front.step shardFor a).map c.send else none
  | .forward i id => do
    let r ← c.waiting i
    if r.ticket = none then c.forward cfg codec i r id else none
  | .unled i err => do
    let r ← c.waiting i
    if r.ticket = none then c.resume shardFor i r (some err) else none
  | .shard _ (.propose _ _) => none
  | .shard s a => ((c.groups s).step (cfg s) (shardMachine codec) a).map (c.setGroup s)
  | .answer i => do
    let r ← c.waiting i
    let stage ← c.stageOf r
    let err ← outcome r stage
    c.resume shardFor i r err
  | .disconnect i err => do
    let r ← c.waiting i
    if r.ticket ≠ none then c.resume shardFor i r (some err) else none

end Cluster

end PaxosPayments.ControlPlane
