import PaxosPayments.Gateway.Banks

/-!
# The coordinator

`gateway/transfer.go`: two-phase commit across the sender's and the receiver's bank. `transfer` is
the call when every request is executed at once and answered. `Stage` cuts the call at its requests:
`Stage.request` is the request a stage waits for, and `Stage.next` where the answer leads. It is
what a call does when requests and answers are lost or late.
-/

namespace PaxosPayments.Gateway

open Bank
open Quoted (quote)

structure TransferRequest where
  transactionID : String
  fromBank : String
  fromAccount : String
  toBank : String
  toAccount : String
  amount : ℚ
  deriving DecidableEq

namespace TransferRequest

/-- The bank of one half of a transfer. -/
def bank (req : TransferRequest) : Operation → String
  | .debit => req.fromBank
  | .credit => req.toBank

/-- The key of one half of a transfer. -/
def key (req : TransferRequest) (op : Operation) : String := transactionKey req.transactionID op

/-- What the bank applies for a request of the coordinator about one half of a transfer. -/
def command (req : TransferRequest) (kind : CmdKind) : Operation → Command
  | .debit => ⟨kind, req.key .debit, .debit, req.fromAccount, req.toAccount, req.amount⟩
  | .credit => ⟨kind, req.key .credit, .credit, req.toAccount, req.fromAccount, req.amount⟩

variable (req : TransferRequest) (kind : CmdKind) (op : Operation)

@[simp]
theorem command_key : (req.command kind op).key = req.key op := by cases op <;> rfl

@[simp]
theorem command_kind : (req.command kind op).kind = kind := by cases op <;> rfl

@[simp]
theorem command_op : (req.command kind op).op = op := by cases op <;> rfl

theorem key_debit_ne_credit : req.key .debit ≠ req.key .credit := by
  intro h
  cases (transactionKey_inj h).2

end TransferRequest

/-- How many times a commit is tried. -/
def commitAttempts : ℕ := 3

/-- The error describes a transient condition. -/
def retriable (e : Status) : Bool :=
  e.code ∈ [Code.unavailable, .deadlineExceeded, .resourceExhausted, .aborted]

/-- The error with the phase that failed. -/
def wrapPhase (e : Status) (context : String) : Status := ⟨e.code, context ++ ": " ++ e.message⟩

/-- The error of a transfer of which only the debit is known to be applied. -/
def inDoubt (req : TransferRequest) : Status :=
  ⟨.dataLoss, "transaction " ++ req.transactionID ++ " is in doubt: the sender was debited but " ++
    "the receiver could not be credited; it requires manual reconciliation"⟩

/-! ## A call whose requests are answered -/

/-- One request to a bank, executed and answered. -/
def call (banks : Banks) (req : TransferRequest) (kind : CmdKind) (op : Operation) :
    Banks × Option Status :=
  let (banks, result) := banks.execute (req.bank op) (req.command kind op)
  (banks, result.err)

/-- `coordinator.commit`, with `attempts` left and the error of the last one. -/
def commit (req : TransferRequest) (op : Operation) :
    ℕ → Option Status → Banks → Banks × Option Status
  | 0, lastErr, banks => (banks, lastErr)
  | attempts + 1, _, banks =>
    match call banks req .commit op with
    | (banks, none) => (banks, none)
    | (banks, some e) =>
      if !retriable e then (banks, some e) else commit req op attempts (some e) banks

/-- `coordinator.abort`: its error is only logged. -/
def abort (banks : Banks) (req : TransferRequest) (op : Operation) : Banks :=
  (call banks req .abort op).1

/-- `coordinator.transfer`: the banks afterwards, and the error if there is one. -/
def transfer (banks : Banks) (req : TransferRequest) : Banks × Option Status :=
  if banks.lookup req.fromBank = none then
    (banks, some ⟨.notFound,
      "sender bank " ++ quote req.fromBank ++ " is not registered with this gateway"⟩)
  else if banks.lookup req.toBank = none then
    (banks, some ⟨.notFound,
      "receiver bank " ++ quote req.toBank ++ " is not registered with this gateway"⟩)
  else
    match call banks req .prepare .debit with
    | (banks, some e) => (banks, some (wrapPhase e "debit could not be prepared"))
    | (banks, none) =>
      match call banks req .prepare .credit with
      | (banks, some e) =>
        (abort banks req .debit, some (wrapPhase e "credit could not be prepared"))
      | (banks, none) =>
        match commit req .debit commitAttempts none banks with
        | (banks, some e) =>
          (abort (abort banks req .debit) req .credit,
            some (wrapPhase e "debit could not be committed"))
        | (banks, none) =>
          match commit req .credit commitAttempts none banks with
          | (banks, some _) => (banks, some (inDoubt req))
          | (banks, none) => (banks, none)

/-- `TransferMoney` of a caller who owns the account. -/
def transferMoney (banks : Banks) (req : TransferRequest) : Banks × Option Status :=
  if req.transactionID = "" then
    (banks, some ⟨.invalidArgument, "a transaction id is required for idempotent retries"⟩)
  else if req.amount ≤ 0 then
    (banks, some ⟨.invalidArgument, "amount must be positive, got " ++ fixed2 req.amount⟩)
  else transfer banks req

/-! ## The same call in stages -/

/-- Where a call stands: the request it waits for, or its result. -/
inductive Stage
  | prepareDebit
  | prepareCredit
  /-- The credit has been refused, and the debit is released. -/
  | undoDebit (err : Status)
  | commitDebit (attempt : ℕ)
  /-- The debit commit has failed, and both halves are released. -/
  | abortDebit (err : Status)
  | abortCredit (err : Status)
  | commitCredit (attempt : ℕ)
  | returned (err : Option Status)
  deriving DecidableEq

namespace Stage

/-- The request a stage waits for. -/
def request : Stage → Option (CmdKind × Operation)
  | prepareDebit => some (.prepare, .debit)
  | prepareCredit => some (.prepare, .credit)
  | undoDebit _ => some (.abort, .debit)
  | commitDebit _ => some (.commit, .debit)
  | abortDebit _ => some (.abort, .debit)
  | abortCredit _ => some (.abort, .credit)
  | commitCredit _ => some (.commit, .credit)
  | returned _ => none

/-- Where the answer leads: `none` is success. -/
def next (req : TransferRequest) : Stage → Option Status → Stage
  | prepareDebit, some e => returned (some (wrapPhase e "debit could not be prepared"))
  | prepareDebit, none => prepareCredit
  | prepareCredit, some e => undoDebit (wrapPhase e "credit could not be prepared")
  | prepareCredit, none => commitDebit 1
  | undoDebit err, _ => returned (some err)
  | commitDebit _, none => commitCredit 1
  | commitDebit attempt, some e =>
    if retriable e && attempt < commitAttempts then commitDebit (attempt + 1)
    else abortDebit (wrapPhase e "debit could not be committed")
  | abortDebit err, _ => abortCredit err
  | abortCredit err, _ => returned (some err)
  | commitCredit _, none => returned none
  | commitCredit attempt, some e =>
    if retriable e && attempt < commitAttempts then commitCredit (attempt + 1)
    else returned (some (inDoubt req))
  | returned err, _ => returned err

/-! ### The stages of phase two -/

variable {req : TransferRequest} {stage : Stage} {err : Option Status} {n : ℕ} {op : Operation}

theorem next_commitDebit (n : ℕ) :
    (commitDebit n).next req err = commitCredit 1 ∨
      (∃ m, (commitDebit n).next req err = commitDebit m) ∨
      ∃ e, (commitDebit n).next req err = abortDebit e := by
  cases err with
  | none => exact Or.inl rfl
  | some e =>
    simp only [next]
    split_ifs
    · exact Or.inr (Or.inl ⟨_, rfl⟩)
    · exact Or.inr (Or.inr ⟨_, rfl⟩)

theorem next_commitCredit (n : ℕ) :
    (commitCredit n).next req err = returned none ∨
      (∃ m, (commitCredit n).next req err = commitCredit m) ∨
      (commitCredit n).next req err = returned (some (inDoubt req)) := by
  cases err with
  | none => exact Or.inl rfl
  | some e =>
    simp only [next]
    split_ifs
    · exact Or.inr (Or.inl ⟨_, rfl⟩)
    · exact Or.inr (Or.inr rfl)

theorem request_commit (h : stage.request = some (.commit, op)) :
    (op = .debit ∧ ∃ n, stage = commitDebit n) ∨ op = .credit ∧ ∃ n, stage = commitCredit n := by
  cases stage with
  | commitDebit n =>
    simp only [request, Option.some.injEq, Prod.mk.injEq, true_and] at h
    exact Or.inl ⟨h.symm, n, rfl⟩
  | commitCredit n =>
    simp only [request, Option.some.injEq, Prod.mk.injEq, true_and] at h
    exact Or.inr ⟨h.symm, n, rfl⟩
  | prepareDebit | prepareCredit | undoDebit | abortDebit | abortCredit | returned =>
    simp [request] at h

/-- The commit of the credit begins when that of the debit has succeeded. -/
theorem next_eq_commitCredit (h : stage.next req err = commitCredit n) :
    (err = none ∧ ∃ m, stage = commitDebit m) ∨ ∃ m, stage = commitCredit m := by
  cases stage with
  | commitCredit m => exact Or.inr ⟨m, rfl⟩
  | commitDebit m =>
    cases err with
    | none => exact Or.inl ⟨rfl, m, rfl⟩
    | some e =>
      simp only [next] at h
      split_ifs at h
  | prepareDebit | prepareCredit | undoDebit | abortDebit | abortCredit | returned =>
    cases err <;> simp [next] at h

/-- A call returns `nil` when the commit of the credit has succeeded. -/
theorem next_eq_returned_none (h : stage.next req err = returned none) :
    (err = none ∧ ∃ m, stage = commitCredit m) ∨ stage = returned none := by
  cases stage with
  | returned r => exact Or.inr h
  | commitCredit m =>
    cases err with
    | none => exact Or.inl ⟨rfl, m, rfl⟩
    | some e =>
      simp only [next] at h
      split_ifs at h
      simp at h
  | commitDebit m =>
    rcases @next_commitDebit req err m with hn | ⟨k, hn⟩ | ⟨e, hn⟩ <;> simp [hn] at h
  | prepareDebit | prepareCredit | undoDebit | abortDebit | abortCredit =>
    cases err <;> simp [next] at h

end Stage

end PaxosPayments.Gateway
