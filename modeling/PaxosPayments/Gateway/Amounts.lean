import PaxosPayments.Bank.Service
import PaxosPayments.Client.Queue
import PaxosPayments.Gateway.Auth

/-!
# Amounts on their way to the log

An amount is a float64 from the prompt of the client to the log of a bank. The client and the
gateway refuse it when `amount <= 0`, which is false of an infinity and of a NaN. The bank encodes
its command as JSON before anything is checked there, and `encodeCommand` panics when the encoder
refuses the command.

The encoder is the assumption `Json`: it takes exactly the commands with a finite amount, and a
command is read back as it was written. An admitted payment can then be encoded exactly if its
amount is a positive number (`encoded_iff`); `+Inf` and `NaN` are admitted as well and stop the bank
(`nan_panics`).

The other modules have amounts that are numbers. For a finite amount the two agree: the gateway's
checks are those of `transferMoney` (`transferMoney_exact`), the command is that of the coordinator
(`command_exact`), and the bytes are those of a `Codec` (`Json.codec`, `encodeCommand_exact`).
-/

namespace PaxosPayments

/-! ## Comparison of float64 -/

namespace Double

/-- The operator `<=`. A NaN is in no order. -/
def le : Double → Double → Bool
  | nan, _ => false
  | _, nan => false
  | infinity negative, y => negative || y = infinity false
  | finite _, infinity negative => !negative
  | finite a, finite b => a ≤ b

/-- The text of a float64 under `%.2f`. -/
def fixed2 : Double → String
  | finite q => PaxosPayments.fixed2 q
  | infinity negative => if negative then "-Inf" else "+Inf"
  | nan => "NaN"

/-- The number that a float64 is, if it is one. -/
def exact : Double → Option ℚ
  | finite q => some q
  | infinity _ | nan => none

theorem isFinite_iff {x : Double} : x.isFinite = true ↔ ∃ q, x = finite q := by
  cases x <;> simp [isFinite]

/-- **What the check `amount <= 0` lets through.** -/
theorem le_zero_eq_false_iff {x : Double} :
    x.le (finite 0) = false ↔ (∃ q, x = finite q ∧ 0 < q) ∨ x = infinity false ∨ x = nan := by
  cases x with
  | finite q => simp [le]
  | infinity negative => cases negative <;> simp [le]
  | nan => simp [le]

end Double

/-! ## Commands as JSON -/

namespace Bank

/-- `DebitCreditRequest`, its amount a float64. -/
structure DebitCreditRequest where
  accountID : String
  amount : Double
  transactionID : String
  counterpartyAccount : String
  deriving DecidableEq

/-- The struct `command`, its amount a float64. -/
structure FloatCommand where
  kind : CmdKind
  key : String
  op : Operation
  accountID : String
  counterparty : String
  amount : Double
  deriving DecidableEq

/-- The command that `prepare`, `commit` or `abort` hands to `propose`. -/
def DebitCreditRequest.command (req : DebitCreditRequest) (kind : CmdKind) (op : Operation) :
    FloatCommand :=
  ⟨kind, transactionKey req.transactionID op, op, req.accountID, req.counterpartyAccount,
    req.amount⟩

/-- The command with the number that its amount is. -/
def FloatCommand.exact (c : FloatCommand) : Option Command :=
  c.amount.exact.map fun q => ⟨c.kind, c.key, c.op, c.accountID, c.counterparty, q⟩

def Command.float (c : Command) : FloatCommand :=
  ⟨c.kind, c.key, c.op, c.accountID, c.counterparty, .finite c.amount⟩

@[simp]
theorem Command.exact_float (c : Command) : c.float.exact = some c := rfl

/-- `json.Marshal` and `json.Unmarshal` on commands. -/
structure Json where
  marshal : FloatCommand → Except String Paxos.Command
  unmarshal : Paxos.Command → Except String FloatCommand
  marshal_finite : ∀ c, c.amount.isFinite = true → ∃ raw, raw ≠ [] ∧ marshal c = .ok raw
  marshal_not_finite : ∀ c, c.amount.isFinite = false → ∃ err, marshal c = .error err
  unmarshal_marshal : ∀ c raw, marshal c = .ok raw → unmarshal raw = .ok c

variable (json : Json)

/-- `encodeCommand`; `none` is its panic. -/
def encodeCommand (c : FloatCommand) : Option Paxos.Command :=
  match json.marshal c with
  | .ok raw => some raw
  | .error _ => none

def decodeCommand (raw : Paxos.Command) : Except String FloatCommand :=
  match json.unmarshal raw with
  | .ok c => .ok c
  | .error err => .error ("decode command: " ++ err)

theorem encodeCommand_finite {c : FloatCommand} (h : c.amount.isFinite = true) :
    ∃ raw, raw ≠ [] ∧ encodeCommand json c = some raw ∧ decodeCommand json raw = .ok c := by
  obtain ⟨raw, hne, hraw⟩ := json.marshal_finite c h
  refine ⟨raw, hne, by rw [encodeCommand, hraw], ?_⟩
  rw [decodeCommand, json.unmarshal_marshal c raw hraw]

variable {json}

theorem encodeCommand_not_finite {c : FloatCommand} (h : c.amount.isFinite = false) :
    encodeCommand json c = none := by
  obtain ⟨err, herr⟩ := json.marshal_not_finite c h
  rw [encodeCommand, herr]

/-- JSON as a codec for the commands whose amounts are numbers. -/
def Json.codec (json : Json) : Codec where
  encode c := (encodeCommand json c.float).getD []
  decode raw := (decodeCommand json raw).bind fun c =>
    match c.exact with
    | some c => .ok c
    -- not reached: JSON has no text for such an amount
    | none => .error "decode command: amount out of range"
  decode_encode c := by
    obtain ⟨raw, -, henc, hdec⟩ := encodeCommand_finite json (c := c.float) rfl
    rw [henc, Option.getD_some, hdec]
    rfl
  encode_ne_nil c := by
    obtain ⟨raw, hne, henc, -⟩ := encodeCommand_finite json (c := c.float) rfl
    rwa [henc, Option.getD_some]

/-- A JSON made of any codec. -/
def Json.ofCodec (codec : Codec) : Json where
  marshal c :=
    match c.exact with
    | some c => .ok (codec.encode c)
    | none => .error ("json: unsupported value: " ++ c.amount.fixed2)
  unmarshal raw := (codec.decode raw).map Command.float
  marshal_finite c h := by
    obtain ⟨kind, key, op, accountID, counterparty, amount⟩ := c
    obtain ⟨q, rfl⟩ := Double.isFinite_iff.mp h
    exact ⟨_, codec.encode_ne_nil _, rfl⟩
  marshal_not_finite c h := by
    obtain ⟨kind, key, op, accountID, counterparty, amount⟩ := c
    cases amount with
    | finite q => cases h
    | infinity negative => exact ⟨_, rfl⟩
    | nan => exact ⟨_, rfl⟩
  unmarshal_marshal c raw h := by
    obtain ⟨kind, key, op, accountID, counterparty, amount⟩ := c
    cases amount with
    | finite q =>
      obtain rfl := Except.ok.inj h
      rw [codec.decode_encode]
      rfl
    | infinity negative => cases h
    | nan => cases h

theorem encodeCommand_exact {c : FloatCommand} {c' : Command} (h : c.exact = some c') :
    encodeCommand json c = some (json.codec.encode c') := by
  have hc : c = c'.float := by
    obtain ⟨kind, key, op, accountID, counterparty, amount⟩ := c
    cases amount with
    | finite q =>
      obtain rfl := Option.some.inj h
      rfl
    | infinity negative => cases h
    | nan => cases h
  obtain ⟨raw, -, henc, -⟩ := encodeCommand_finite json (c := c'.float) rfl
  have hraw : json.codec.encode c' = raw := by
    unfold Json.codec
    dsimp only
    rw [henc, Option.getD_some]
  rw [hc, henc, hraw]

end Bank

/-! ## The checks in front of the bank -/

/-- The check of `session.transfer` on what `strconv.ParseFloat` returns. -/
def Client.validAmount (parsed : Except String Double) : Bool :=
  match parsed with
  | .error _ => false
  | .ok amount => !amount.le (.finite 0)

namespace Gateway

open Bank

/-- The checks of `TransferMoney`: its error, or `none` if the request goes to the coordinator. -/
def checkTransfer (caller : Option Identity) (req : Client.TransferRequest) : Option Status :=
  match requireOwnership caller req.fromAccount with
  | .error err => some err
  | .ok _ =>
    if req.transactionID = "" then
      some ⟨.invalidArgument, "a transaction id is required for idempotent retries"⟩
    else if req.amount.le (.finite 0) then
      some ⟨.invalidArgument, "amount must be positive, got " ++ req.amount.fixed2⟩
    else none

/-- The request of the coordinator about one half of a transfer. -/
def debitCredit (req : Client.TransferRequest) : Operation → DebitCreditRequest
  | .debit => ⟨req.fromAccount, req.amount, req.transactionID, req.toAccount⟩
  | .credit => ⟨req.toAccount, req.amount, req.transactionID, req.fromAccount⟩

/-- The transfer with the number that its amount is. -/
def exactTransfer (req : Client.TransferRequest) : Option TransferRequest :=
  req.amount.exact.map fun q =>
    ⟨req.transactionID, req.fromBank, req.fromAccount, req.toBank, req.toAccount, q⟩

section exact

variable {req : Client.TransferRequest} {r : TransferRequest}

theorem exactTransfer_eq_some (h : exactTransfer req = some r) : req =
    ⟨r.transactionID, r.fromAccount, r.toAccount, r.fromBank, r.toBank, .finite r.amount⟩ := by
  obtain ⟨id, fromAccount, toAccount, fromBank, toBank, amount⟩ := req
  cases amount with
  | finite q =>
    obtain rfl := Option.some.inj h
    rfl
  | infinity negative => cases h
  | nan => cases h

/-- With an amount that is a number, what the bank is asked to log is what the coordinator has it
apply. -/
theorem command_exact (h : exactTransfer req = some r) (kind : CmdKind) (op : Operation) :
    ((debitCredit req op).command kind op).exact = some (r.command kind op) := by
  rw [exactTransfer_eq_some h]
  cases op <;> rfl

/-- With an amount that is a number, the checks are those of `transferMoney`. -/
theorem transferMoney_exact (h : exactTransfer req = some r) {caller : Option Identity}
    {u : Identity} (howner : requireOwnership caller req.fromAccount = .ok u) (banks : Banks) :
    transferMoney banks r =
      match checkTransfer caller req with
      | some err => (banks, some err)
      | none => transfer banks r := by
  unfold checkTransfer transferMoney
  rw [howner]
  obtain rfl := exactTransfer_eq_some h
  by_cases hid : r.transactionID = ""
  · simp [hid]
  by_cases hamount : r.amount ≤ 0
  · simp [hid, hamount, Double.le, Double.fixed2]
  · simp [hid, hamount, Double.le]

end exact

/-- **Which admitted payments can be encoded for the log.** -/
theorem encoded_iff (json : Json) {caller : Option Identity} {req : Client.TransferRequest}
    (h : checkTransfer caller req = none) :
    (∀ kind op, ∃ raw, encodeCommand json ((debitCredit req op).command kind op) = some raw ∧
        decodeCommand json raw = .ok ((debitCredit req op).command kind op)) ↔
      ∃ q, req.amount = .finite q ∧ 0 < q := by
  have hamount : ∀ kind op, ((debitCredit req op).command kind op).amount = req.amount := by
    intro kind op
    cases op <;> rfl
  have hpositive : req.amount.le (.finite 0) = false := by
    unfold checkTransfer at h
    split at h
    · cases h
    · split_ifs at h with hid hle
      simpa using hle
  constructor
  · intro hall
    obtain ⟨raw, henc, -⟩ := hall .prepare .debit
    rcases Double.le_zero_eq_false_iff.mp hpositive with hq | hother
    · exact hq
    · have hfinite : req.amount.isFinite = false := by
        rcases hother with h | h <;> rw [h] <;> rfl
      rw [← hamount .prepare .debit] at hfinite
      rw [encodeCommand_not_finite hfinite] at henc
      cases henc
  · rintro ⟨q, hq, -⟩ kind op
    obtain ⟨raw, -, henc, hdec⟩ := encodeCommand_finite json
      (c := (debitCredit req op).command kind op) (by rw [hamount, hq]; rfl)
    exact ⟨raw, henc, hdec⟩

/-- A payment of a user of the gateway. -/
def paymentOf (amount : Double) : Client.TransferRequest := ⟨"1", "a", "b", "X", "Y", amount⟩

theorem encoded_five :
    let json : Json := .ofCodec .json
    let req := paymentOf (.finite 5)
    checkTransfer (some ⟨"ann", "", "a", "X"⟩) req = none ∧ ∀ kind op, ∃ raw,
      encodeCommand json ((debitCredit req op).command kind op) = some raw ∧
        decodeCommand json raw = .ok ((debitCredit req op).command kind op) := by
  have hreq : checkTransfer (some ⟨"ann", "", "a", "X"⟩) (paymentOf (.finite 5)) = none := by
    decide
  exact ⟨hreq, (encoded_iff _ hreq).mpr ⟨5, rfl, by decide⟩⟩

/-- **A NaN and an infinity pass the client and the gateway and make the bank panic.** -/
theorem nan_panics :
    let caller : Option Identity := some ⟨"ann", "", "a", "X"⟩
    let payments := [paymentOf .nan, paymentOf (.infinity false)]
    payments.map (fun req => Client.validAmount (.ok req.amount)) = [true, true] ∧
      payments.map (checkTransfer caller) = [none, none] ∧
      payments.map (fun req => encodeCommand (.ofCodec .json)
        ((debitCredit req .debit).command .prepare .debit)) = [none, none] := by
  decide

end Gateway

end PaxosPayments
