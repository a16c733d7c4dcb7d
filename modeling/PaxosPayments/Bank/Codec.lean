import PaxosPayments.Bank.Participant
import PaxosPayments.Foundations.Json
import PaxosPayments.Paxos.Node

/-!
# Commands as bytes

A bank hands its commands to Paxos as bytes, `encodeCommand`, and its state machine reads them back,
`decodeCommand`. What the bank relies on are the laws of a `Codec`: a command is read back as it was
written, and its bytes are not those of a no-op. `Codec.json` is the codec of the source.

`Participant.applyRaw` is `bankStateMachine.Apply` on bytes.
-/

namespace PaxosPayments.Bank

/-- `encodeCommand` and `decodeCommand`. The error of `decode` is the message of the result that
`Apply` returns for such bytes, an unknown kind of command included. -/
structure Codec where
  encode : Command → Paxos.Command
  decode : Paxos.Command → Except String Command
  decode_encode : ∀ c, decode (encode c) = .ok c
  encode_ne_nil : ∀ c, encode c ≠ []

/-- One slot of the log, with the result that goes to the proposer. A no-op is not passed to the
state machine, and its result is `nil`. -/
def Participant.applyRaw (codec : Codec) (p : Participant) (raw : Paxos.Command) :
    Participant × Option ApplyResult :=
  if raw = [] then (p, none)
  else
    match codec.decode raw with
    | .error message => (p, some (.failure ⟨.internal, message⟩))
    | .ok c => ((p.apply c).1, some (p.apply c).2)

theorem Participant.applyRaw_encode (codec : Codec) (p : Participant) (c : Command) :
    p.applyRaw codec (codec.encode c) = ((p.apply c).1, some (p.apply c).2) := by
  simp [applyRaw, codec.encode_ne_nil, codec.decode_encode]

/-! ## The commands as JSON -/

/-- The kind of a command as the source writes it. -/
def CmdKind.text : CmdKind → String
  | .prepare => "prepare"
  | .commit => "commit"
  | .abort => "abort"

namespace Codec

/-- The fields of a command under the names of their tags. -/
def toJson (c : Command) : Json.Value :=
  .object [("kind", .text c.kind.text), ("key", .text c.key), ("op", .text c.op.text),
    ("accountId", .text c.accountID), ("counterparty", .text c.counterparty),
    ("amount", .ofRat c.amount)]

def kindOf (kind : String) : Except String CmdKind :=
  if kind = "prepare" then .ok .prepare
  else if kind = "commit" then .ok .commit
  else if kind = "abort" then .ok .abort
  else .error ("unknown command kind " ++ Quoted.quote kind)

/-- The fields of the struct `command`, of which the kind and the operation are texts. -/
def fields (v : Json.Value) : Option (String × String × String × String × String × ℚ) := do
  return (← v.read "kind" (·.asText) "", ← v.read "key" (·.asText) "",
    ← v.read "op" (·.asText) "", ← v.read "accountId" (·.asText) "",
    ← v.read "counterparty" (·.asText) "", ← v.read "amount" (·.asRat) 0)

/-- What is not a command of the source's encoding gets the error of a text that ends too early. -/
def decodeCommand (raw : Paxos.Command) : Except String Command :=
  match (Json.unmarshal raw).bind fields with
  | none => .error "decode command: unexpected end of JSON input"
  | some (kind, key, op, accountID, counterparty, amount) => do
    let op := if op = "debit" then Operation.debit else .credit
    return ⟨← kindOf kind, key, op, accountID, counterparty, amount⟩

theorem fields_toJson (c : Command) : fields (toJson c) =
    some (c.kind.text, c.key, c.op.text, c.accountID, c.counterparty, c.amount) := by
  simp [fields, toJson, Json.Value.read_cons_of_ne]

example : String.ofList (toJson ⟨.prepare, "T1-debit", .debit, "A", "B", 1 / 4⟩).put =
    "\x7b\"kind\":\"prepare\",\"key\":\"T1-debit\",\"op\":\"debit\",\"accountId\":\"A\"," ++
      "\"counterparty\":\"B\",\"amount\":0.25\x7d" := by
  decide +kernel

/-- `encodeCommand` and `decodeCommand` of the source. -/
def json : Codec where
  encode c := Json.marshal (toJson c)
  decode := decodeCommand
  decode_encode c := by
    rw [decodeCommand, Json.unmarshal_marshal, Option.bind_some, fields_toJson]
    obtain ⟨kind, key, op, accountID, counterparty, amount⟩ := c
    cases kind <;> cases op <;> rfl
  encode_ne_nil c := by simp [Json.marshal, Json.toBytes, toJson, Json.Value.put]

end Codec

end PaxosPayments.Bank
