import PaxosPayments.Gateway.Coordinator

/-!
# Conservation of money

Calls of `TransferMoney` one after another, every request executed and answered. Between two calls
no bank holds a reservation (`Idle`), so that what a call does depends on which of its halves are
settled and which would be accepted.

A call keeps the sum of all balances unless both halves are accepted and exactly one of them is
settled already (`halfSettled`, `conserved_iff`). The two halves are recognised by the key of the
transaction at their own banks, whatever the details were: a client that uses a transaction id again
with another receiving bank has the receiver credited and nobody debited (`money_created`).
-/

namespace PaxosPayments.Gateway

open Bank

/-- No bank holds a reservation. -/
def Idle (banks : Banks) : Prop := ∀ name key, banks.held name key = none

/-- The half would be accepted by its bank. -/
def accepts (banks : Banks) (req : TransferRequest) (op : Operation) : Bool :=
  (banks.lookup (req.bank op)).any (·.accepts (req.command .prepare op))

/-- Both halves of the transfer are accepted, and one of them is settled already. -/
def halfSettled (banks : Banks) (req : TransferRequest) : Bool :=
  accepts banks req .debit && accepts banks req .credit &&
    (banks.settled req.fromBank (req.key .debit) != banks.settled req.toBank (req.key .credit))

/-! ## Single requests -/

variable {banks : Banks} {req : TransferRequest} {kind : CmdKind} {op : Operation}

/-- The account of one half of a transfer. -/
def TransferRequest.account (req : TransferRequest) : Operation → String
  | .debit => req.fromAccount
  | .credit => req.toAccount

theorem command_accountID (req : TransferRequest) (kind : CmdKind) (op : Operation) :
    (req.command kind op).accountID = req.account op := by cases op <;> rfl

theorem command_reservation (req : TransferRequest) (kind kind' : CmdKind) (op : Operation)
    (settled : Bool) :
    (req.command kind op).reservation settled = (req.command kind' op).reservation settled := by
  cases op <;> rfl

/-- A request about one half leaves everything else alone. -/
theorem held_call_ne {name key : String} (h : name ≠ req.bank op ∨ key ≠ req.key op) :
    (call banks req kind op).1.held name key = banks.held name key :=
  Banks.held_execute_ne (by rwa [TransferRequest.command_key])

theorem settled_call_ne {other : Operation} (h : other ≠ op) :
    (call banks req kind op).1.settled (req.bank other) (req.key other) =
      banks.settled (req.bank other) (req.key other) := by
  refine Bool.eq_iff_iff.mpr (Banks.settled_execute.trans (or_iff_left ?_))
  rintro ⟨-, heq, -⟩
  rw [TransferRequest.command_key] at heq
  exact h (transactionKey_inj heq).2

/-- Only a commit changes balances and ledgers. -/
theorem moves_eq_false (hk : kind ≠ .commit) (result : ApplyResult) :
    (req.command kind op).moves result = false := by
  simp [Command.moves, hk]

theorem settled_call (hk : kind ≠ .commit) (name key : String) :
    (call banks req kind op).1.settled name key = banks.settled name key := by
  refine Bool.eq_iff_iff.mpr (Banks.settled_execute.trans (or_iff_left ?_))
  rw [moves_eq_false hk]
  rintro ⟨-, -, h⟩
  cases h

theorem sum_call (hk : kind ≠ .commit) : (call banks req kind op).1.sum = banks.sum := by
  have h := Banks.sum_execute banks (req.bank op) (req.command kind op)
  rw [moves_eq_false hk, if_neg Bool.false_ne_true, add_zero] at h
  exact h

theorem balance_call_eq_none_iff {name accountID : String} :
    (call banks req kind op).1.balance name accountID = none ↔
      banks.balance name accountID = none :=
  Banks.balance_execute_eq_none_iff

theorem call_of_lookup {p : Participant} (hp : banks.lookup (req.bank op) = some p) :
    call banks req kind op = (banks.insert (req.bank op) (p.apply (req.command kind op)).1,
      (p.apply (req.command kind op)).2.err) := by
  rw [call, Banks.execute_of_lookup hp]

theorem call_prepare_refused (hreg : banks.lookup (req.bank op) ≠ none)
    (hfree : banks.held (req.bank op) (req.key op) = none) (h : accepts banks req op = false) :
    ∃ e, call banks req .prepare op = (banks, some e) := by
  obtain ⟨p, hp⟩ := Option.ne_none_iff_exists'.mp hreg
  simp only [accepts, hp, Option.any_some] at h
  simp only [Banks.held, hp, Option.bind_some] at hfree
  rw [← req.command_key .prepare] at hfree
  obtain ⟨e, he, happly⟩ := Participant.apply_prepare_refused (req.command_kind .prepare op) hfree h
  refine ⟨e, ?_⟩
  rw [call_of_lookup hp, happly, insert_eq_self hp]
  simp [ApplyResult.err, ApplyResult.failure, he]

theorem call_abort_held (banks : Banks) (req : TransferRequest) (op : Operation) :
    (call banks req .abort op).1.held (req.bank op) (req.key op) = none := by
  unfold Banks.held
  cases hp : banks.lookup (req.bank op) with
  | none => simp [call, Banks.execute, hp]
  | some p =>
    rw [call_of_lookup hp]
    simp [Finmap.lookup_insert, Participant.apply, Participant.abort, Participant.release,
      Finmap.lookup_erase]

/-- The account of an accepted half is there, unless the half is settled. -/
theorem balance_of_accepts (h : accepts banks req op = true) :
    banks.settled (req.bank op) (req.key op) = true ∨
      banks.balance (req.bank op) (req.account op) ≠ none := by
  rw [accepts, Option.any_eq_true] at h
  obtain ⟨p, hp, hacc⟩ := h
  rw [Participant.accepts, Bool.and_eq_true, Bool.or_eq_true, Option.any_eq_true] at hacc
  rcases hacc.2 with hs | ⟨b, hb, -⟩
  · left
    simpa [Banks.settled, hp] using hs
  · right
    rw [command_accountID] at hb
    simp [Banks.balance, hp, hb]

/-- A commit of the half will succeed: its bank holds the reservation that the `PREPARE` made, and
has the account unless the half is settled. -/
structure Ready (banks : Banks) (req : TransferRequest) (op : Operation) : Prop where
  held : banks.held (req.bank op) (req.key op) = some
    ((req.command .prepare op).reservation (banks.settled (req.bank op) (req.key op)))
  account : banks.settled (req.bank op) (req.key op) = true ∨
    banks.balance (req.bank op) (req.account op) ≠ none

theorem call_prepare_accepted (hfree : banks.held (req.bank op) (req.key op) = none)
    (h : accepts banks req op = true) :
    (call banks req .prepare op).2 = none ∧ Ready (call banks req .prepare op).1 req op := by
  have haccount := balance_of_accepts h
  rw [accepts, Option.any_eq_true] at h
  obtain ⟨p, hp, hacc⟩ := h
  simp only [Banks.held, hp, Option.bind_some] at hfree
  rw [← req.command_key .prepare] at hfree
  have happly := Participant.apply_prepare_accepted (req.command_kind .prepare op) hfree hacc
  refine ⟨by rw [call_of_lookup hp, happly]; rfl, ?_, ?_⟩
  · rw [settled_call (by decide), call_of_lookup hp, happly]
    simp [Banks.held, Banks.settled, hp, Participant.hold, Finmap.lookup_insert]
  · rwa [settled_call (by decide), Ne, balance_call_eq_none_iff]

/-- A request about the other half changes nothing about this one. -/
theorem Ready.call_ne {other : Operation} (h : Ready banks req op) (hne : op ≠ other) :
    Ready (call banks req kind other).1 req op := by
  have hkey : req.key op ≠ req.key other := fun heq => hne (transactionKey_inj heq).2
  refine ⟨?_, ?_⟩
  · rw [held_call_ne (Or.inr hkey), settled_call_ne hne, h.held]
  · rw [settled_call_ne hne, Ne, balance_call_eq_none_iff]
    exact h.account

/-- What an accepted half moves. -/
def moved (banks : Banks) (req : TransferRequest) (op : Operation) : ℚ :=
  if banks.settled (req.bank op) (req.key op) then 0 else (req.command .commit op).delta

theorem moved_call_ne {other : Operation} (hne : op ≠ other) :
    moved (call banks req kind other).1 req op = moved banks req op := by
  rw [moved, settled_call_ne hne, moved]

theorem moved_call (hk : kind ≠ .commit) {other : Operation} :
    moved (call banks req kind other).1 req op = moved banks req op := by
  rw [moved, settled_call hk, moved]

/-- **A commit of what is held succeeds**: it moves the amount unless the half is settled. -/
theorem Ready.commit (h : Ready banks req op) :
    (call banks req .commit op).2 = none ∧
      (call banks req .commit op).1.held (req.bank op) (req.key op) = none ∧
      (call banks req .commit op).1.sum = banks.sum + moved banks req op := by
  obtain ⟨hheld, haccount⟩ := h
  have hsum := Banks.sum_execute banks (req.bank op) (req.command .commit op)
  cases hp : banks.lookup (req.bank op) with
  | none => simp [Banks.held, hp] at hheld
  | some p =>
    simp only [Banks.held, Banks.settled, Banks.balance, hp, Option.bind_some, Option.any_some,
      moved] at hheld haccount ⊢
    rw [command_reservation req .prepare .commit, ← req.command_key .commit] at hheld
    rw [← req.command_key .commit, ← command_accountID req .commit] at haccount
    obtain ⟨hres, hnone⟩ :=
      Participant.apply_commit_held (req.command_kind .commit op) hheld haccount
    rw [TransferRequest.command_key] at hres hnone
    rw [Banks.execute_of_lookup hp, hres] at hsum
    rw [call_of_lookup hp, hres]
    refine ⟨rfl, by simpa [Finmap.lookup_insert] using hnone, hsum.trans ?_⟩
    cases p.ledger.has (req.key op) <;> simp [Command.moves, ApplyResult.success]

/-! ## A whole call -/

theorem lookup_call_ne_none {name : String} :
    (call banks req kind op).1.lookup name ≠ none ↔ banks.lookup name ≠ none := by
  rw [← Option.isSome_iff_ne_none, ← Option.isSome_iff_ne_none]
  exact iff_of_eq (congrArg (· = true) Banks.lookup_execute_isSome)

/-- What a credit needs to be accepted. -/
theorem accepts_credit (hreg : banks.lookup req.toBank ≠ none) :
    accepts banks req .credit = (Participant.wellFormed (req.command .prepare .credit) &&
      (banks.settled req.toBank (req.key .credit) ||
        (banks.balance req.toBank req.toAccount).isSome)) := by
  obtain ⟨p, hp⟩ := Option.ne_none_iff_exists'.mp hreg
  have hp' : banks.lookup (req.bank .credit) = some p := hp
  have haccount : (req.command .prepare .credit).accountID = req.toAccount := rfl
  simp only [accepts, hp', Banks.settled, Banks.balance, hp, Option.any_some, Option.bind_some,
    Participant.accepts, TransferRequest.command_key, haccount]
  cases p.store.balance req.toAccount <;> simp

/-- A `PREPARE` of the debit does not change whether the credit is accepted. -/
theorem accepts_credit_call (hreg : banks.lookup req.toBank ≠ none) :
    accepts (call banks req .prepare .debit).1 req .credit = accepts banks req .credit := by
  have hsome : ((call banks req .prepare .debit).1.balance req.toBank req.toAccount).isSome =
      (banks.balance req.toBank req.toAccount).isSome := by
    rw [Bool.eq_iff_iff, Option.isSome_iff_ne_none, Option.isSome_iff_ne_none]
    exact not_congr balance_call_eq_none_iff
  rw [accepts_credit hreg, accepts_credit (lookup_call_ne_none.mpr hreg),
    settled_call (by decide), hsome]

theorem commit_of_call {attempts : ℕ} {err : Option Status}
    (h : (call banks req .commit op).2 = none) :
    commit req op (attempts + 1) err banks = ((call banks req .commit op).1, none) := by
  rw [commit]
  generalize call banks req .commit op = q at h
  obtain ⟨banks', err'⟩ := q
  subst h
  rfl

theorem call_eq_of_snd {err : Option Status} (h : (call banks req kind op).2 = err) :
    call banks req kind op = ((call banks req kind op).1, err) := by
  rw [← h]

/-- A call of which one half is refused changes no balance and leaves no reservation. -/
theorem transfer_refused (hidle : Idle banks) (hfrom : banks.lookup req.fromBank ≠ none)
    (hto : banks.lookup req.toBank ≠ none)
    (h : (accepts banks req .debit && accepts banks req .credit) = false) :
    Idle (transfer banks req).1 ∧ (transfer banks req).1.sum = banks.sum := by
  rw [transfer, if_neg hfrom, if_neg hto]
  cases hdebit : accepts banks req .debit with
  | false =>
    obtain ⟨e, he⟩ := @call_prepare_refused banks req .debit hfrom (hidle _ _) hdebit
    rw [he]
    exact ⟨hidle, rfl⟩
  | true =>
    have hcredit : accepts banks req .credit = false := by simpa [hdebit] using h
    obtain ⟨hok, -⟩ := call_prepare_accepted (hidle _ _) hdebit
    rw [call_eq_of_snd hok]
    have hfree : (call banks req .prepare .debit).1.held req.toBank (req.key .credit) = none := by
      rw [held_call_ne (Or.inr req.key_debit_ne_credit.symm), hidle]
    obtain ⟨e, he⟩ := @call_prepare_refused _ req .credit (lookup_call_ne_none.mpr hto) hfree
      ((accepts_credit_call hto).trans hcredit)
    simp only [he]
    refine ⟨fun name key => ?_, ?_⟩
    · by_cases hkey : name = req.fromBank ∧ key = req.key .debit
      · obtain ⟨rfl, rfl⟩ := hkey
        exact call_abort_held _ req .debit
      · have hne : name ≠ req.bank .debit ∨ key ≠ req.key .debit := not_and_or.mp hkey
        rw [abort, held_call_ne hne, held_call_ne hne, hidle]
    · rw [abort, sum_call (by decide), sum_call (by decide)]

/-- A call of which both halves are accepted succeeds, and moves what is not settled. -/
theorem transfer_accepted (hidle : Idle banks) (hfrom : banks.lookup req.fromBank ≠ none)
    (hto : banks.lookup req.toBank ≠ none) (hdebit : accepts banks req .debit = true)
    (hcredit : accepts banks req .credit = true) :
    Idle (transfer banks req).1 ∧ (transfer banks req).2 = none ∧
      (transfer banks req).1.sum =
        banks.sum + moved banks req .debit + moved banks req .credit := by
  have hne : Operation.credit ≠ Operation.debit := by decide
  -- phase one: both halves are held
  obtain ⟨hok₁, hready₁⟩ := call_prepare_accepted (hidle _ _) hdebit
  set banks₁ := (call banks req .prepare .debit).1 with hbanks₁
  have hfree₁ : banks₁.held (req.bank .credit) (req.key .credit) = none := by
    rw [hbanks₁, held_call_ne (Or.inr req.key_debit_ne_credit.symm), hidle]
  obtain ⟨hok₂, hready₂⟩ :=
    call_prepare_accepted hfree₁ ((accepts_credit_call hto).trans hcredit)
  set banks₂ := (call banks₁ req .prepare .credit).1 with hbanks₂
  -- phase two: each is committed at the first attempt
  have hready₂' : Ready banks₂ req .debit := hready₁.call_ne hne.symm
  obtain ⟨hok₃, hheld₃, hsum₃⟩ := hready₂'.commit
  set banks₃ := (call banks₂ req .commit .debit).1 with hbanks₃
  have hready₃ : Ready banks₃ req .credit := hready₂.call_ne hne
  obtain ⟨hok₄, hheld₄, hsum₄⟩ := hready₃.commit
  have htransfer : transfer banks req = ((call banks₃ req .commit .credit).1, none) := by
    rw [transfer, if_neg hfrom, if_neg hto, call_eq_of_snd hok₁]
    simp only
    rw [← hbanks₁, call_eq_of_snd hok₂]
    simp only
    rw [← hbanks₂, commitAttempts, commit_of_call hok₃]
    simp only
    rw [← hbanks₃, commit_of_call hok₄]
  rw [htransfer]
  refine ⟨fun name key => ?_, rfl, ?_⟩
  · by_cases hc : name = req.bank .credit ∧ key = req.key .credit
    · obtain ⟨rfl, rfl⟩ := hc
      exact hheld₄
    · rw [held_call_ne (not_and_or.mp hc)]
      by_cases hd : name = req.bank .debit ∧ key = req.key .debit
      · obtain ⟨rfl, rfl⟩ := hd
        exact hheld₃
      · rw [hbanks₃, held_call_ne (not_and_or.mp hd), hbanks₂, held_call_ne (not_and_or.mp hc),
          hbanks₁, held_call_ne (not_and_or.mp hd), hidle]
  · have hdebit₂ : moved banks₂ req .debit = moved banks req .debit :=
      (moved_call (by decide)).trans (moved_call (by decide))
    have hcredit₃ : moved banks₃ req .credit = moved banks req .credit :=
      (moved_call_ne hne).trans ((moved_call (by decide)).trans (moved_call (by decide)))
    rw [hsum₄, hsum₃, hdebit₂, hcredit₃, hbanks₂, sum_call (by decide), hbanks₁,
      sum_call (by decide)]

theorem transfer_unregistered
    (h : banks.lookup req.fromBank = none ∨ banks.lookup req.toBank = none) :
    (transfer banks req).1 = banks := by
  rw [transfer]
  split_ifs with hfrom hto
  · rfl
  · rfl
  · exact absurd h (not_or.mpr ⟨hfrom, hto⟩)

/-- **No reservation outlives a call.** -/
theorem idle_transfer (hidle : Idle banks) : Idle (transfer banks req).1 := by
  by_cases hreg : banks.lookup req.fromBank = none ∨ banks.lookup req.toBank = none
  · rwa [transfer_unregistered hreg]
  · rw [not_or] at hreg
    cases h : accepts banks req .debit && accepts banks req .credit with
    | false => exact (transfer_refused hidle hreg.1 hreg.2 h).1
    | true =>
      rw [Bool.and_eq_true] at h
      exact (transfer_accepted hidle hreg.1 hreg.2 h.1 h.2).1

theorem accepts_of_unregistered (h : banks.lookup (req.bank op) = none) :
    accepts banks req op = false := by
  simp [accepts, h]

/-- **What a call does to the sum of all balances.** -/
theorem sum_transfer (hidle : Idle banks) (hpos : 0 < req.amount) :
    (transfer banks req).1.sum = banks.sum ↔ halfSettled banks req = false := by
  by_cases hreg : banks.lookup req.fromBank = none ∨ banks.lookup req.toBank = none
  · rw [transfer_unregistered hreg]
    have hnot : halfSettled banks req = false := by
      rcases hreg with h | h
      · simp [halfSettled, @accepts_of_unregistered banks req .debit h]
      · simp [halfSettled, @accepts_of_unregistered banks req .credit h]
    simp [hnot]
  · rw [not_or] at hreg
    cases h : accepts banks req .debit && accepts banks req .credit with
    | false =>
      simp [(transfer_refused hidle hreg.1 hreg.2 h).2, halfSettled, h]
    | true =>
      have hacc := Bool.and_eq_true_iff.mp h
      rw [(transfer_accepted hidle hreg.1 hreg.2 hacc.1 hacc.2).2.2, halfSettled, h, Bool.true_and]
      simp only [moved, TransferRequest.bank, TransferRequest.command, Command.delta]
      have hne := hpos.ne'
      by_cases hdebit : banks.settled req.fromBank (req.key .debit) = true <;>
        by_cases hcredit : banks.settled req.toBank (req.key .credit) = true <;>
          simp [hdebit, hcredit, hne]

/-! ## Calls one after another -/

/-- The banks after a sequence of calls. -/
def serve (banks : Banks) (reqs : List TransferRequest) : Banks :=
  reqs.foldl (fun banks req => (transferMoney banks req).1) banks

theorem idle_transferMoney (hidle : Idle banks) : Idle (transferMoney banks req).1 := by
  rw [transferMoney]
  split_ifs
  · exact hidle
  · exact hidle
  · exact idle_transfer hidle

theorem idle_serve (hidle : Idle banks) (reqs : List TransferRequest) :
    Idle (serve banks reqs) := by
  induction reqs generalizing banks with
  | nil => exact hidle
  | cons req reqs ih => exact ih (idle_transferMoney hidle)

/-- **Conservation**: after any calls, a further call keeps the sum of all balances exactly when it
is not half settled. -/
theorem conserved_iff {start : Banks} (hidle : Idle start) (reqs : List TransferRequest)
    (hid : req.transactionID ≠ "") (hpos : 0 < req.amount) :
    (transferMoney (serve start reqs) req).1.sum = (serve start reqs).sum ↔
      halfSettled (serve start reqs) req = false := by
  rw [transferMoney, if_neg hid, if_neg (not_le.mpr hpos)]
  exact sum_transfer (idle_serve hidle reqs) hpos

/-- Three banks with an account each. -/
def threeBanks : Banks :=
  ((Finmap.singleton "X" (newParticipant [⟨"alice", "", "", "X", 100⟩] ⟨[], ∅⟩)).insert "Y"
    (newParticipant [⟨"bob", "", "", "Y", 0⟩] ⟨[], ∅⟩)).insert "Z"
    (newParticipant [⟨"carol", "", "", "Z", 0⟩] ⟨[], ∅⟩)

theorem idle_of_entries (h : ∀ e ∈ banks.entries, e.2.prepared = ∅) : Idle banks := by
  intro name key
  unfold Banks.held
  cases hp : banks.lookup name with
  | none => rfl
  | some p =>
    have hnone : p.prepared = ∅ := h _ (Finmap.lookup_eq_some_iff.mp hp)
    rw [Option.bind_some, hnone]
    exact Finmap.lookup_empty key

theorem idle_threeBanks : Idle threeBanks := idle_of_entries (by decide +kernel)

/-- A transfer from `alice` to `bob`. -/
def toBob : TransferRequest := ⟨"1", "X", "alice", "Y", "bob", 10⟩

/-- The same transaction id, with another receiver at another bank. -/
def toCarol : TransferRequest := ⟨"1", "X", "alice", "Z", "carol", 10⟩

theorem conserved_toBob :
    (transferMoney (serve threeBanks []) toBob).1.sum = (serve threeBanks []).sum ∧
      (transferMoney (serve threeBanks [toBob]) toBob).1.sum = (serve threeBanks [toBob]).sum :=
  ⟨(conserved_iff idle_threeBanks [] (by decide) (by decide)).mpr (by decide +kernel),
    (conserved_iff idle_threeBanks [toBob] (by decide) (by decide)).mpr (by decide +kernel)⟩

/-- The debit of the second call counts as settled, and its credit is new: `carol` has ten that
nobody has paid. -/
theorem money_created :
    (serve threeBanks [toBob]).sum = 100 ∧
      (transferMoney (serve threeBanks [toBob]) toCarol).2 = none ∧
      (transferMoney (serve threeBanks [toBob]) toCarol).1.sum = 110 := by
  decide +kernel

end PaxosPayments.Gateway
