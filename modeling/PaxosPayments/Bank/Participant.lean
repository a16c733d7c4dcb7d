import PaxosPayments.Bank.Accounts
import PaxosPayments.Bank.Ledger
import PaxosPayments.Foundations.Totals

/-!
# A bank as a participant of two-phase commit

`twopc.go` and `statemachine.go`. A participant is the accounts file, the ledger and the table of
reservations, of which only the first two outlive the process. `prepare` holds a reservation,
`commit` applies it to the balance and records its key in the ledger, `abort` drops it; `apply` is
one command of the replicated log.

Go's map of reservations is a `Finmap`. The order in which `reservedLocked` visits it does not
matter, since amounts are exact.

`Outcome` lists what a command can do to a participant. `Participant.Sound` is what every command
keeps of the table: a reservation is marked settled only when its key is in the ledger.
-/

namespace PaxosPayments.Bank

/-- What a participant keeps between `PREPARE` and `COMMIT` or `ABORT`. -/
structure Reservation where
  op : Operation
  accountID : String
  counterparty : String
  amount : ℚ
  settled : Bool
  deriving DecidableEq

/-- The three operations a bank replica group replicates. -/
inductive CmdKind
  | prepare
  | commit
  | abort
  deriving DecidableEq

/-- One entry in the Paxos log. -/
structure Command where
  kind : CmdKind
  key : String
  op : Operation
  accountID : String
  counterparty : String
  amount : ℚ
  deriving DecidableEq

namespace Command

/-- The reservation that a command asks for. -/
def reservation (c : Command) (settled : Bool) : Reservation :=
  ⟨c.op, c.accountID, c.counterparty, c.amount, settled⟩

/-- What a commit adds to the balance of its account. -/
def delta (c : Command) : ℚ :=
  match c.op with
  | .debit => -c.amount
  | .credit => c.amount

/-- The account the money comes from, as the ledger records it. -/
def source (c : Command) : String :=
  match c.op with
  | .debit => c.accountID
  | .credit => c.counterparty

/-- The account the money goes to, as the ledger records it. -/
def target (c : Command) : String :=
  match c.op with
  | .debit => c.counterparty
  | .credit => c.accountID

end Command

/-- The details of a reservation are those of the command. -/
def Reservation.agrees (r : Reservation) (c : Command) : Bool :=
  r.op = c.op && r.accountID = c.accountID && r.counterparty = c.counterparty &&
    r.amount = c.amount

/-- What a reservation withholds of the balance of an account. -/
def Reservation.withheld (accountID : String) (r : Reservation) : ℚ :=
  if r.op = .debit ∧ r.accountID = accountID ∧ r.settled = false then r.amount else 0

structure Participant where
  store : Store
  ledger : Ledger
  prepared : Finmap fun _ : String => Reservation
  deriving DecidableEq

def newParticipant (store : Store) (l : Ledger) : Participant := ⟨store, l, ∅⟩

/-- The key of one half of a transfer. -/
def transactionKey (transactionID : String) (op : Operation) : String :=
  transactionID ++ "-" ++ op.text

/-- What `Apply` hands back to the replica that proposed the command. -/
structure ApplyResult where
  code : Code
  message : String
  alreadySettled : Bool
  deriving DecidableEq

namespace ApplyResult

/-- `applyResult{AlreadySettled: settled}`. -/
def success (settled : Bool) : ApplyResult := ⟨.ok, "", settled⟩

def failure (e : Status) : ApplyResult := ⟨e.code, e.message, false⟩

/-- The error of a result; `none` is `nil`. -/
def err (r : ApplyResult) : Option Status :=
  if r.code = .ok then none else some ⟨r.code, r.message⟩

end ApplyResult

namespace Participant

/-- The outstanding debit reservations against an account. -/
def reservedLocked (p : Participant) (accountID : String) : ℚ :=
  total (fun _ r => r.withheld accountID) p.prepared

/-- `p.prepared[key] = r`. -/
def hold (p : Participant) (key : String) (r : Reservation) : Participant :=
  { p with prepared := p.prepared.insert key r }

def release (p : Participant) (key : String) : Participant :=
  { p with prepared := p.prepared.erase key }

/-- `prepare`: the participant afterwards, and the error if there is one. -/
def prepare (p : Participant) (c : Command) : Participant × Option Status :=
  if c.accountID = c.counterparty then
    (p, some ⟨.invalidArgument, "self-transfer is not allowed"⟩)
  else if c.amount ≤ 0 then
    (p, some ⟨.invalidArgument, "amount must be positive, got " ++ fixed2 c.amount⟩)
  else if p.ledger.has c.key then
    (p.hold c.key (c.reservation true), none)
  else
    match p.store.balance c.accountID with
    | none => (p, some ⟨.notFound, "account " ++ c.accountID ++ " does not exist at this bank"⟩)
    | some balance =>
      match p.prepared.lookup c.key with
      | some existing =>
        if existing.agrees c then (p, none)
        else
          (p, some ⟨.alreadyExists,
            "transaction " ++ c.key ++ " is already prepared with different details"⟩)
      | none =>
        let available := balance - p.reservedLocked c.accountID
        if c.op = .debit ∧ available < c.amount then
          (p, some ⟨.failedPrecondition, "insufficient funds in " ++ c.accountID ++ ": " ++
            fixed2 available ++ " available, " ++ fixed2 c.amount ++ " requested"⟩)
        else (p.hold c.key (c.reservation false), none)

/-- `commit`: the participant afterwards, and whether the transaction had been settled before or the
error. Both writes succeed. -/
def commit (p : Participant) (c : Command) : Participant × Except Status Bool :=
  if p.ledger.has c.key then (p.release c.key, .ok true)
  else
    match p.prepared.lookup c.key with
    | none =>
      (p, .error ⟨.aborted, "no prepared transaction " ++ c.key ++
        "; it was never prepared or has been aborted"⟩)
    | some r =>
      if !r.agrees c then
        (p, .error ⟨.invalidArgument,
          "commit for " ++ c.key ++ " does not match what was prepared"⟩)
      else if r.settled then (p.release c.key, .ok true)
      else
        match p.store.addDelta c.accountID c.delta with
        | none =>
          (p.release c.key,
            .error ⟨.notFound, "account " ++ c.accountID ++ " disappeared before commit"⟩)
        | some (_, store) =>
          let ledger := p.ledger.record c.key c.source c.target c.op c.amount
          ((⟨store, ledger, p.prepared⟩ : Participant).release c.key, .ok false)

def abort (p : Participant) (key : String) : Participant := p.release key

/-- `bankStateMachine.Apply` on a decoded command. -/
def apply (p : Participant) (c : Command) : Participant × ApplyResult :=
  match c.kind with
  | .prepare =>
    match p.prepare c with
    | (p', some e) => (p', .failure e)
    | (p', none) => (p', .success false)
  | .commit =>
    match p.commit c with
    | (p', .error e) => (p', .failure e)
    | (p', .ok settled) => (p', .success settled)
  | .abort => (p.abort c.key, .success false)

/-- What a command does to a participant, and what it answers. -/
inductive Outcome (p : Participant) (c : Command) : Participant → ApplyResult → Prop
  /-- A refused command changes nothing. -/
  | refuse (e : Status) (he : e.code ≠ .ok) : Outcome p c p (.failure e)
  /-- The same reservation is held already. -/
  | again (hk : c.kind = .prepare) : Outcome p c p (.success false)
  | hold (hk : c.kind = .prepare) :
    Outcome p c (p.hold c.key (c.reservation (p.ledger.has c.key))) (.success false)
  /-- A commit that has been applied before. -/
  | settled (hk : c.kind = .commit)
      (hs : c.key ∈ p.ledger.applied ∨
        ∃ r, p.prepared.lookup c.key = some r ∧ r.settled = true) :
    Outcome p c (p.release c.key) (.success true)
  /-- The account of a prepared commit is missing. -/
  | vanished (e : Status) (he : e.code ≠ .ok) : Outcome p c (p.release c.key) (.failure e)
  | moved (r : Reservation) (v : ℚ) (store : Store) (hk : c.kind = .commit)
      (hkey : c.key ∉ p.ledger.applied) (hr : p.prepared.lookup c.key = some r)
      (hadd : p.store.addDelta c.accountID c.delta = some (v, store)) :
    Outcome p c
      ⟨store, p.ledger.record c.key c.source c.target c.op c.amount, p.prepared.erase c.key⟩
      (.success false)
  | drop (hk : c.kind = .abort) : Outcome p c (p.release c.key) (.success false)

theorem Outcome.of_prepare (p : Participant) {c : Command} (hk : c.kind = .prepare) :
    Outcome p c (p.apply c).1 (p.apply c).2 := by
  rw [apply, hk]
  simp only [prepare]
  have hhold : Outcome p c (p.hold c.key (c.reservation (p.ledger.has c.key))) (.success false) :=
    .hold hk
  split_ifs with hself hamount hsettled
  · exact .refuse _ (by decide)
  · exact .refuse _ (fun h => by cases h)
  · simpa [hsettled] using hhold
  · cases hb : p.store.balance c.accountID with
    | none => exact .refuse _ (fun h => by cases h)
    | some balance =>
      cases hr : p.prepared.lookup c.key with
      | some r =>
        by_cases hag : r.agrees c = true
        · simpa [hag] using Outcome.again hk
        · simpa [hag] using Outcome.refuse _ (fun h => by cases h)
      | none =>
        by_cases hfunds : c.op = .debit ∧ balance - p.reservedLocked c.accountID < c.amount
        · simpa [hfunds] using Outcome.refuse _ (fun h => by cases h)
        · simpa [hfunds, hsettled] using hhold

theorem Outcome.of_commit (p : Participant) {c : Command} (hk : c.kind = .commit) :
    Outcome p c (p.apply c).1 (p.apply c).2 := by
  rw [apply, hk]
  simp only [commit]
  split_ifs with hsettled
  · exact .settled hk (Or.inl (Ledger.has_iff.mp hsettled))
  · cases hr : p.prepared.lookup c.key with
    | none => exact .refuse _ (fun h => by cases h)
    | some r =>
      by_cases hag : r.agrees c = true
      · cases hs : r.settled with
        | true => simpa [hag, hs] using Outcome.settled hk (Or.inr ⟨r, hr, hs⟩)
        | false =>
          cases hadd : p.store.addDelta c.accountID c.delta with
          | none => simpa [hag, hs] using Outcome.vanished _ (fun h => by cases h)
          | some w =>
            have hmoved := Outcome.moved r w.1 w.2 hk (mt Ledger.has_iff.mpr hsettled) hr hadd
            simpa [hag, hs, release] using hmoved
      · simpa [hag] using Outcome.refuse _ (fun h => by cases h)

theorem Outcome.of_apply (p : Participant) (c : Command) :
    Outcome p c (p.apply c).1 (p.apply c).2 := by
  cases hk : c.kind with
  | prepare => exact .of_prepare p hk
  | commit => exact .of_commit p hk
  | abort =>
    rw [apply, hk]
    exact .drop hk

/-- A reservation is marked settled only when its key is in the ledger. -/
def Sound (p : Participant) : Prop :=
  ∀ k r, p.prepared.lookup k = some r → r.settled = true → k ∈ p.ledger.applied

end Participant

/-- The answer says that a balance has been changed. -/
def Command.moves (c : Command) (res : ApplyResult) : Bool :=
  c.kind = .commit && res.code = .ok && !res.alreadySettled

namespace Participant.Outcome

variable {p p' : Participant} {c : Command} {res : ApplyResult}

@[simp]
theorem moves_failure {e : Status} (he : e.code ≠ .ok) : c.moves (.failure e) = false := by
  simp [Command.moves, ApplyResult.failure, he]

/-- What a command does to the two files. -/
theorem files (h : Outcome p c p' res) :
    if c.moves res then c.key ∉ p.ledger.applied ∧
      (∃ v, p.store.addDelta c.accountID c.delta = some (v, p'.store)) ∧
      p'.ledger.applied = insert c.key p.ledger.applied
    else p'.store = p.store ∧ p'.ledger = p.ledger := by
  cases h with
  | refuse e he => rw [moves_failure he]; exact ⟨rfl, rfl⟩
  | again hk => simp [Command.moves, hk]
  | hold hk => simp [Command.moves, hk, Participant.hold]
  | settled hk => simp [Command.moves, ApplyResult.success, release]
  | vanished e he => rw [moves_failure he]; exact ⟨rfl, rfl⟩
  | moved r v store hk hkey hr hadd => simp [Command.moves, ApplyResult.success, hk, hkey, hadd]
  | drop hk => simp [Command.moves, hk, release]

/-- **A balance changes exactly when the answer says so**, and by the amount of the command. -/
theorem store (h : Outcome p c p' res) :
    if c.moves res then ∃ v, p.store.addDelta c.accountID c.delta = some (v, p'.store)
    else p'.store = p.store := by
  have hfiles := h.files
  split_ifs at hfiles ⊢
  · exact hfiles.2.1
  · exact hfiles.1

/-- **The ledger grows by the keys of the commands that change a balance**, each of them new. -/
theorem applied (h : Outcome p c p' res) :
    if c.moves res then c.key ∉ p.ledger.applied ∧
      p'.ledger.applied = insert c.key p.ledger.applied
    else p'.ledger = p.ledger := by
  have hfiles := h.files
  split_ifs at hfiles ⊢
  · exact ⟨hfiles.1, hfiles.2.2⟩
  · exact hfiles.2

theorem applied_subset (h : Outcome p c p' res) : p.ledger.applied ⊆ p'.ledger.applied := by
  have happlied := h.applied
  split_ifs at happlied
  · rw [happlied.2]
    exact Finset.subset_insert _ _
  · rw [happlied]

/-- A command that changes a balance has had a reservation. -/
theorem held (h : Outcome p c p' res) (hmoves : c.moves res = true) :
    p.prepared.lookup c.key ≠ none := by
  cases h with
  | refuse e he => rw [moves_failure he] at hmoves; cases hmoves
  | again hk => simp [Command.moves, hk] at hmoves
  | hold hk => simp [Command.moves, hk] at hmoves
  | settled hk => simp [Command.moves, ApplyResult.success] at hmoves
  | vanished e he => rw [moves_failure he] at hmoves; cases hmoves
  | moved r v store hk hkey hr hadd => simp [hr]
  | drop hk => simp [Command.moves, hk] at hmoves

/-- A command touches the reservation of its own key only. -/
theorem lookup_ne (h : Outcome p c p' res) {k : String} (hk : k ≠ c.key) :
    p'.prepared.lookup k = p.prepared.lookup k := by
  cases h with
  | refuse | again => rfl
  | hold => exact Finmap.lookup_insert_of_ne _ hk
  | settled | vanished | moved | drop => exact Finmap.lookup_erase_ne hk

theorem sound (h : Outcome p c p' res) (hp : p.Sound) : p'.Sound := by
  intro k r hr hs
  by_cases hk : k = c.key
  · subst hk
    cases h with
    | refuse | again => exact hp _ r hr hs
    | hold =>
      rw [Participant.hold, Finmap.lookup_insert, Option.some.injEq] at hr
      subst hr
      exact Ledger.has_iff.mp hs
    | settled | vanished | moved | drop =>
      simp [release, Finmap.lookup_erase] at hr
  · rw [h.lookup_ne hk] at hr
    exact h.applied_subset (hp k r hr hs)

/-- **A commit that is answered with success is in the ledger.** -/
theorem mem_of_commit (h : Outcome p c p' res) (hp : p.Sound) (hk : c.kind = .commit)
    (hres : res.code = .ok) : c.key ∈ p'.ledger.applied := by
  cases h with
  | refuse e he => exact absurd hres he
  | again hk' => simp [hk] at hk'
  | hold hk' => simp [hk] at hk'
  | settled _ hs =>
    rcases hs with hs | ⟨r, hr, hs⟩
    · exact hs
    · exact hp _ r hr hs
  | vanished e he => exact absurd hres he
  | moved => exact Finset.mem_insert_self _ _
  | drop hk' => simp [hk] at hk'

end Participant.Outcome

/-! ## Single commands -/

namespace Participant

variable {p : Participant} {c : Command}

/-- The checks of `prepare` that come before the look into the ledger. -/
def wellFormed (c : Command) : Bool := c.accountID ≠ c.counterparty && 0 < c.amount

theorem apply_prepare_malformed (hk : c.kind = .prepare) (hw : wellFormed c = false)
    (p : Participant) : (p.apply c).1 = p := by
  rw [apply, hk]
  simp only [prepare]
  simp only [wellFormed, Bool.and_eq_false_iff, decide_eq_false_iff_not, not_not, not_lt] at hw
  by_cases hself : c.accountID = c.counterparty
  · simp [hself]
  · simp [hself, hw.resolve_left hself]

theorem apply_prepare_settled (hk : c.kind = .prepare) (hw : wellFormed c = true)
    (hkey : c.key ∈ p.ledger.applied) :
    p.apply c = (p.hold c.key (c.reservation true), .success false) := by
  simp only [wellFormed, Bool.and_eq_true, decide_eq_true_eq] at hw
  rw [apply, hk]
  simp [prepare, hw.1, not_le.mpr hw.2, Ledger.has_iff.mpr hkey]

/-- A `PREPARE` is accepted and held, or it is refused and changes nothing. -/
theorem apply_prepare_cases (p : Participant) (hk : c.kind = .prepare) :
    (p.apply c).2.err = none ∧ (p.apply c).1.prepared.lookup c.key ≠ none ∨
      (p.apply c).2.err ≠ none ∧ (p.apply c).1 = p := by
  have hrefuse : ∀ e : Status, e.code ≠ .ok → (ApplyResult.failure e).err ≠ none := by
    intro e he
    simp [ApplyResult.err, ApplyResult.failure, he]
  have hhold : ∀ settled, (p.hold c.key (c.reservation settled)).prepared.lookup c.key ≠ none := by
    simp [hold]
  rw [apply, hk]
  simp only [prepare]
  split_ifs
  · exact Or.inr ⟨hrefuse _ nofun, rfl⟩
  · exact Or.inr ⟨hrefuse _ nofun, rfl⟩
  · exact Or.inl ⟨rfl, hhold true⟩
  · cases p.store.balance c.accountID with
    | none => exact Or.inr ⟨hrefuse _ nofun, rfl⟩
    | some balance =>
      cases hr : p.prepared.lookup c.key with
      | some r =>
        dsimp only
        split_ifs
        · exact Or.inl ⟨rfl, by simp [hr]⟩
        · exact Or.inr ⟨hrefuse _ nofun, rfl⟩
      | none =>
        dsimp only
        split_ifs
        · exact Or.inr ⟨hrefuse _ nofun, rfl⟩
        · exact Or.inl ⟨rfl, hhold false⟩

theorem apply_commit_settled (hk : c.kind = .commit) (hkey : c.key ∈ p.ledger.applied) :
    p.apply c = (p.release c.key, .success true) := by
  rw [apply, hk]
  simp [commit, Ledger.has_iff.mpr hkey]

/-- A `PREPARE` of a key under which nothing is held is accepted: it is settled, or its account is
there and a debit is covered. -/
def accepts (p : Participant) (c : Command) : Bool :=
  wellFormed c && (p.ledger.has c.key || (p.store.balance c.accountID).any fun balance =>
    c.op = .credit || c.amount ≤ balance - p.reservedLocked c.accountID)

theorem apply_prepare_accepted (hk : c.kind = .prepare) (hfree : p.prepared.lookup c.key = none)
    (h : p.accepts c = true) :
    p.apply c = (p.hold c.key (c.reservation (p.ledger.has c.key)), .success false) := by
  rw [accepts, Bool.and_eq_true] at h
  obtain ⟨hw, h⟩ := h
  cases hs : p.ledger.has c.key with
  | true => exact apply_prepare_settled hk hw (Ledger.has_iff.mp hs)
  | false =>
    simp only [hs, Bool.false_or, Option.any_eq_true] at h
    obtain ⟨balance, hb, hfunds⟩ := h
    simp only [wellFormed, Bool.and_eq_true, decide_eq_true_eq] at hw
    have hcovered : ¬(c.op = .debit ∧ balance - p.reservedLocked c.accountID < c.amount) := by
      rintro ⟨hop, hshort⟩
      simp only [hop, reduceCtorEq, decide_false, Bool.false_or, decide_eq_true_eq] at hfunds
      exact absurd hshort (not_lt.mpr hfunds)
    rw [apply, hk]
    simp [prepare, hw.1, not_le.mpr hw.2, hs, hb, hfree, hcovered]

theorem apply_prepare_refused (hk : c.kind = .prepare) (hfree : p.prepared.lookup c.key = none)
    (h : p.accepts c = false) : ∃ e : Status, e.code ≠ .ok ∧ p.apply c = (p, .failure e) := by
  rw [apply, hk]
  simp only [prepare]
  by_cases hself : c.accountID = c.counterparty
  · rw [if_pos hself]
    refine ⟨_, ?_, rfl⟩
    nofun
  by_cases hamount : c.amount ≤ 0
  · rw [if_neg hself, if_pos hamount]
    refine ⟨_, ?_, rfl⟩
    nofun
  have hw : wellFormed c = true := by simp [wellFormed, hself, not_le.mp hamount]
  rw [accepts, hw, Bool.true_and, Bool.or_eq_false_iff] at h
  rw [if_neg hself, if_neg hamount, h.1]
  simp only [hfree, Bool.false_eq_true, if_false]
  cases hb : p.store.balance c.accountID with
  | none =>
    refine ⟨_, ?_, rfl⟩
    nofun
  | some balance =>
    have hfunds := h.2
    simp only [hb, Option.any_some, Bool.or_eq_false_iff, decide_eq_false_iff_not, not_le] at hfunds
    have hop : c.op = .debit := by
      cases hop : c.op with
      | debit => rfl
      | credit => exact absurd hop hfunds.1
    simp only [if_pos (And.intro hop hfunds.2)]
    refine ⟨_, ?_, rfl⟩
    nofun

/-- A `COMMIT` of what is held succeeds when its account is there. -/
theorem apply_commit_held (hk : c.kind = .commit)
    (hheld : p.prepared.lookup c.key = some (c.reservation (p.ledger.has c.key)))
    (haccount : p.ledger.has c.key = true ∨ p.store.balance c.accountID ≠ none) :
    (p.apply c).2 = .success (p.ledger.has c.key) ∧
      (p.apply c).1.prepared.lookup c.key = none := by
  cases hs : p.ledger.has c.key with
  | true =>
    rw [apply_commit_settled hk (Ledger.has_iff.mp hs)]
    exact ⟨rfl, Finmap.lookup_erase _ _⟩
  | false =>
    rw [hs] at hheld haccount
    have hb := haccount.resolve_left Bool.false_ne_true
    have hsome : p.store.addDelta c.accountID c.delta ≠ none := mt Store.addDelta_eq_none_iff.mp hb
    obtain ⟨w, hadd⟩ := Option.ne_none_iff_exists'.mp hsome
    have hag : (c.reservation false).agrees c = true := by
      simp [Reservation.agrees, Command.reservation]
    have hnew : (c.reservation false).settled = false := rfl
    rw [apply, hk]
    simp [commit, hs, hheld, hag, hnew, hadd, release, Finmap.lookup_erase]

end Participant

/-! ## Keys -/

theorem transactionKey_toList (id : String) (op : Operation) :
    (transactionKey id op).toList = id.toList ++ ('-' :: op.text.toList) := by
  have hdash : ("-" : String).toList = ['-'] := by decide +kernel
  simp [transactionKey, String.toList_append, hdash]

/-- The two halves of all transfers have keys of their own. -/
theorem transactionKey_inj {id id' : String} {op op' : Operation}
    (h : transactionKey id op = transactionKey id' op') : id = id' ∧ op = op' := by
  have hlist : id.toList ++ ('-' :: op.text.toList) = id'.toList ++ ('-' :: op'.text.toList) := by
    rw [← transactionKey_toList, ← transactionKey_toList, h]
  have hop : op = op' := by
    -- the third character from the end tells the operations apart
    have hthird := congrArg (fun l => (l.reverse.drop 2).head?) hlist
    have hdebit : ("debit" : String).toList = ['d', 'e', 'b', 'i', 't'] := by decide +kernel
    have hcredit : ("credit" : String).toList = ['c', 'r', 'e', 'd', 'i', 't'] := by
      decide +kernel
    cases op <;> cases op' <;>
      first
        | rfl
        | simp [Operation.text, hdebit, hcredit] at hthird
  subst hop
  exact ⟨String.toList_inj.mp (List.append_cancel_right hlist), rfl⟩

end PaxosPayments.Bank
