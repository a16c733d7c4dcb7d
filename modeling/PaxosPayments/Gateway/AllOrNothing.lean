import PaxosPayments.Gateway.Retries

/-!
# The outcome of a payment

A call with a transaction id of its own. When it returns `nil`, debit and credit are applied. When
it returns an error, and not that the transaction is in doubt, nothing is to be applied, then or
later.

The second half holds in the runs that meet `debitCertain` (`all_or_nothing`): the coordinator gives
up on the commit of the debit only when none of its requests for it has taken effect, and the
requests that are still in flight then come to the bank after the abort. The coordinator cannot know
the first and does not wait for the second. It takes three timeouts for a debit that has not landed,
and the sender is debited (`debited_without_credit`).
-/

namespace PaxosPayments.Gateway

open Bank

namespace Stage

/-- The call has failed before the credit was committed. -/
def gaveUp : Stage → Bool
  | abortDebit _ | abortCredit _ | returned (some _) => true
  | _ => false

/-- The call has sent no commit. -/
def early : Stage → Bool
  | prepareDebit | prepareCredit | undoDebit _ => true
  | _ => false

/-- The call relies on the debit not being applied. -/
def undebited : Stage → Bool
  | returned (some e) => e.code ≠ .dataLoss
  | stage => stage.early || stage.gaveUp

/-- The call relies on the credit not being applied. -/
def uncredited : Stage → Bool
  | commitDebit _ => true
  | stage => stage.undebited

end Stage

/-- The transaction id is used by one call only. -/
def freshID (id : String) (net : Network) : Network.Action → Bool
  | .start req => req.transactionID ≠ id || net.calls.all (·.req.transactionID ≠ id)
  | _ => true

/-- The calls of the transaction are one at most. -/
def OneCall (id : String) (calls : List Call) : Prop :=
  ∀ (i j : ℕ) (c d : Call), calls[i]? = some c → calls[j]? = some d →
    c.req.transactionID = id → d.req.transactionID = id → i = j

theorem OneCall.of_requests {id : String} {calls calls' : List Call} (h : OneCall id calls)
    (hreqs : calls'.map (·.req) = calls.map (·.req)) : OneCall id calls' := by
  intro i j c d hc hd hid hid'
  obtain ⟨c', hc', hcreq⟩ := Network.call_of_requests hreqs hc
  obtain ⟨d', hd', hdreq⟩ := Network.call_of_requests hreqs hd
  exact h i j c' d' hc' hd' (hcreq ▸ hid) (hdreq ▸ hid')

theorem OneCall.concat {id : String} {calls : List Call} (h : OneCall id calls) {new : Call}
    (hnew : new.req.transactionID = id → ∀ c ∈ calls, c.req.transactionID ≠ id) :
    OneCall id (calls ++ [new]) := by
  intro i j c d hc hd hid hid'
  rcases Table.getElem?_concat_eq_some.mp hc with hold | ⟨hi, rfl⟩ <;>
    rcases Table.getElem?_concat_eq_some.mp hd with hold' | ⟨hj, rfl⟩
  · exact h i j c d hold hold' hid hid'
  · exact absurd hid (hnew hid' c (List.mem_of_getElem? hold))
  · exact absurd hid' (hnew hid d (List.mem_of_getElem? hold'))
  · rw [hi, hj]

/-- A call gives up on the commit of its debit only when the debit is not applied. -/
def notLanded (id : String) (net : Network) (c : Call) (err : Option Status) : Bool :=
  match c.stage, c.stage.next c.req err with
  | .commitDebit _, .abortDebit _ =>
    c.req.transactionID ≠ id || !net.banks.settled c.req.fromBank (c.req.key .debit)
  | _, _ => true

/-- When a call has given up, its commits of the debit come to the bank after the abort. -/
def afterAbort (id : String) (net : Network) (f : Flight) : Bool :=
  !(f.command.kind = .commit && f.command.key = transactionKey id .debit &&
    (net.calls[f.call]?).any (·.stage.gaveUp)) ||
  net.banks.held f.bank f.command.key = none

/-- The coordinator is right about the debit that it gives up. -/
def debitCertain (id : String) (net : Network) : Network.Action → Bool
  | .start _ => true
  | .execute i => (net.flights[i]?).all (afterAbort id net)
  | .lose _ => true
  | .answer j => (net.calls[j]?).all fun c => c.answer.all (notLanded id net c)
  | .fail j e => (net.calls[j]?).all (notLanded id net · (some e))

/-- The condition on the actions. -/
def orderly (id : String) (net : Network) (a : Network.Action) : Bool :=
  freshID id net a && debitCertain id net a

/-! ## Stages -/

namespace Stage

variable {req : TransferRequest} {stage : Stage} {err : Option Status}

/-- After the commit of the credit has begun, the call relies on nothing any more. -/
theorem uncredited_next_commitCredit (n : ℕ) :
    ((commitCredit n).next req err).uncredited = false := by
  rcases next_commitCredit n with h | ⟨m, h⟩ | h <;> rw [h]
  · rfl
  · rfl
  · simp [uncredited, undebited, inDoubt]

theorem undebited_le_uncredited (h : stage.undebited = true) : stage.uncredited = true := by
  cases stage <;> first | exact h | rfl

/-- The two stages that commit. -/
theorem early_of_request {op : Operation} (h : stage.request = some (.commit, op)) :
    stage.early = false ∧ (op = .credit → stage.uncredited = false) := by
  rcases request_commit h with ⟨rfl, n, rfl⟩ | ⟨rfl, n, rfl⟩
  · exact ⟨rfl, nofun⟩
  · exact ⟨rfl, fun _ => rfl⟩

/-- A call that has sent a commit does not become early again. -/
theorem early_of_next (h : (stage.next req err).early = true) : stage.early = true := by
  cases stage with
  | prepareDebit | prepareCredit | undoDebit => rfl
  | commitDebit n =>
    rcases next_commitDebit n with hn | ⟨m, hn⟩ | ⟨e, hn⟩ <;> rw [hn] at h <;> cases h
  | commitCredit n =>
    rcases next_commitCredit n with hn | ⟨m, hn⟩ | hn <;> rw [hn] at h <;> cases h
  | abortDebit | abortCredit | returned => cases h

theorem uncredited_of_next (h : (stage.next req err).uncredited = true) :
    stage.uncredited = true := by
  cases stage with
  | prepareDebit | prepareCredit | undoDebit | commitDebit | abortDebit | abortCredit => rfl
  | commitCredit n => rw [uncredited_next_commitCredit] at h; cases h
  | returned r => exact h

/-- A call comes to rely on the debit not being applied when it gives up its commit. -/
theorem undebited_of_next (h : (stage.next req err).undebited = true) :
    stage.undebited = true ∨ ∃ n e, stage = commitDebit n ∧ stage.next req err = abortDebit e := by
  cases stage with
  | prepareDebit | prepareCredit | undoDebit | abortDebit | abortCredit => exact Or.inl rfl
  | commitDebit n =>
    rcases next_commitDebit n with hn | ⟨m, hn⟩ | ⟨e, hn⟩
    · rw [hn] at h; cases h
    · rw [hn] at h; cases h
    · exact Or.inr ⟨n, e, rfl, hn⟩
  | commitCredit n =>
    have := undebited_le_uncredited h
    rw [uncredited_next_commitCredit] at this
    cases this
  | returned r => exact Or.inl h

theorem gaveUp_of_undebited (h : stage.undebited = true) (hearly : stage.early = false) :
    stage.gaveUp = true := by
  cases stage with
  | prepareDebit | prepareCredit | undoDebit => cases hearly
  | commitDebit | commitCredit => cases h
  | abortDebit | abortCredit => rfl
  | returned r =>
    cases r with
    | none => cases h
    | some e => rfl

end Stage

/-! ## What the calls rely on -/

/-- The call of the transaction `id` is right in what it relies on. -/
structure Faithful (id : String) (net : Network) : Prop where
  coherent : Coherent net
  unique : ∀ (i j : ℕ) (c d : Call), net.calls[i]? = some c → net.calls[j]? = some d →
    c.req.transactionID = id → d.req.transactionID = id → i = j
  fresh : (∀ (i : ℕ) (c : Call), net.calls[i]? = some c → c.req.transactionID ≠ id) →
    ∀ name op, net.banks.settled name (transactionKey id op) = false
  debit : ∀ (i : ℕ) (c : Call), net.calls[i]? = some c → c.req.transactionID = id →
    c.stage.undebited = true → ¬Settled net.banks c.req .debit
  credit : ∀ (i : ℕ) (c : Call), net.calls[i]? = some c → c.req.transactionID = id →
    c.stage.uncredited = true → ¬Settled net.banks c.req .credit
  flights : ∀ f ∈ net.flights, f.command.kind = .commit → ∀ c, net.calls[f.call]? = some c →
    c.req.transactionID = id →
      c.stage.early = false ∧ (f.command.op = .credit → c.stage.uncredited = false)

namespace Faithful

variable {id : String} {net net' : Network} {a : Network.Action} {c : Call} {j : ℕ}
  {calls : List Call}

theorem init {banks : Banks} (hsound : banks.Sound)
    (hfresh : ∀ name op, banks.settled name (transactionKey id op) = false) :
    Faithful id (.init banks) := by
  have hnone : ∀ (i : ℕ) (c : Call), (Network.init banks).calls[i]? ≠ some c := by
    simp [Network.init]
  exact ⟨.init hsound, fun i j c d hc => absurd hc (hnone i c), fun _ => hfresh,
    fun i c hc => absurd hc (hnone i c), fun i c hc => absurd hc (hnone i c),
    by simp [Network.init]⟩

theorem oneCall (h : Faithful id net) : OneCall id net.calls := h.unique

theorem absent_of_requests (hreqs : calls.map (·.req) = net.calls.map (·.req))
    (hnone : ∀ (i : ℕ) (d : Call), calls[i]? = some d → d.req.transactionID ≠ id) (i : ℕ)
    (d : Call) (hd : net.calls[i]? = some d) : d.req.transactionID ≠ id := by
  obtain ⟨d', hd', hreq⟩ := Network.call_of_requests hreqs.symm hd
  exact hreq ▸ hnone i d' hd'

/-- The call goes on to a stage in which it relies on nothing new, except on what is so. -/
theorem enter (h : Faithful id net) (hc : net.calls[j]? = some c) {stage : Stage}
    (hcoherent : Coherent (net.enter j c stage))
    (hearly : stage.early = true → c.stage.early = true)
    (hcredit : stage.uncredited = true → c.stage.uncredited = true)
    (hdebit : c.req.transactionID = id → stage.undebited = true → ¬Settled net.banks c.req .debit) :
    Faithful id (net.enter j c stage) := by
  have hreqs : (net.enter j c stage).calls.map (·.req) = net.calls.map (·.req) :=
    Network.requests_enter hc
  refine ⟨hcoherent, h.oneCall.of_requests hreqs,
    fun hnone => h.fresh (absent_of_requests hreqs hnone), fun i d hd hid hst => ?_,
    fun i d hd hid hst => ?_, fun f hf hk d hd hid => ?_⟩
  · rcases Network.call_of_enter hd with hd | ⟨-, rfl⟩
    · exact h.debit i d hd hid hst
    · exact hdebit hid hst
  · rcases Network.call_of_enter hd with hd | ⟨-, rfl⟩
    · exact h.credit i d hd hid hst
    · exact h.credit j c hc hid (hcredit hst)
  · rcases Network.flight_of_enter hf with hf | ⟨kind, op, hreq, rfl⟩
    · rcases Network.call_of_enter hd with hd | ⟨hfj, rfl⟩
      · exact h.flights f hf hk d hd hid
      · obtain ⟨hlate, hcredited⟩ := h.flights f hf hk c (hfj ▸ hc) hid
        refine ⟨Bool.eq_false_iff.mpr fun hst => ?_, fun hop => Bool.eq_false_iff.mpr fun hst => ?_⟩
        · exact Bool.false_ne_true (hlate.symm.trans (hearly hst))
        · exact Bool.false_ne_true ((hcredited hop).symm.trans (hcredit hst))
    · obtain ⟨hj, -⟩ := List.getElem?_eq_some_iff.mp hc
      rw [Network.getElem?_enter hj, if_pos rfl] at hd
      obtain rfl := Option.some.inj hd
      rw [TransferRequest.command_kind] at hk
      rw [TransferRequest.command_op]
      exact Stage.early_of_request (hk ▸ hreq)

/-- A call is added that has not entered its first stage. -/
theorem addCall (h : Faithful id net) {req : TransferRequest} (hother : req.transactionID = id →
      ∀ (i : ℕ) (d : Call), net.calls[i]? = some d → d.req.transactionID ≠ id) :
    Faithful id { net with calls := net.calls ++ [Network.newCall req] } := by
  have hnot : ∀ op, req.transactionID = id → ¬Settled net.banks req op := by
    intro op hid hs
    have hnone := h.fresh (hother hid) (req.bank op) op
    rw [← hid] at hnone
    exact Bool.false_ne_true (hnone.symm.trans hs)
  refine ⟨h.coherent.addCall req, h.oneCall.concat fun hid c hc => ?_, fun hnone => ?_,
    fun i c hc hid hst => ?_, fun i c hc hid hst => ?_, fun f hf hk c hc hid => ?_⟩
  · obtain ⟨i, hi⟩ := List.mem_iff_getElem?.mp hc
    exact hother hid i c hi
  · exact h.fresh fun i c hc => hnone i c (Table.getElem?_concat hc _)
  · rcases Table.getElem?_concat_eq_some.mp hc with hc | ⟨-, rfl⟩
    · exact h.debit i c hc hid hst
    · exact hnot .debit hid
  · rcases Table.getElem?_concat_eq_some.mp hc with hc | ⟨-, rfl⟩
    · exact h.credit i c hc hid hst
    · exact hnot .credit hid
  · obtain ⟨c', -, -, hc', -⟩ := h.coherent.flights f hf
    rcases Table.getElem?_concat_eq_some.mp hc with hc | ⟨hi, -⟩
    · exact h.flights f hf hk c hc hid
    · rw [hi, List.getElem?_eq_none le_rfl] at hc'
      cases hc'

/-- A call begins whose transaction has no call yet. -/
theorem start (h : Faithful id net) {req : TransferRequest}
    (hfresh : freshID id net (.start req) = true) : Faithful id (net.start req) := by
  have hother : req.transactionID = id →
      ∀ (i : ℕ) (d : Call), net.calls[i]? = some d → d.req.transactionID ≠ id := by
    intro hid i d hd
    have hall := by simpa [freshID, hid] using hfresh
    exact hall d (List.mem_of_getElem? hd)
  have hadded := h.addCall hother
  refine hadded.enter (by simp) (h.coherent.start req) (fun _ => rfl) (fun _ => rfl) ?_
  intro hid _
  exact hadded.debit net.calls.length (Network.newCall req) (by simp) hid rfl

/-- The request that settles a half of the transaction is a commit of its call. -/
theorem settles {f : Flight} {name : String} {op : Operation} (h : Faithful id net)
    (hf : f ∈ net.flights) (hkey : transactionKey id op = f.command.key)
    (hmoves : f.command.moves (net.banks.execute name f.command).2 = true) :
    ∃ c, net.calls[f.call]? = some c ∧ c.req.transactionID = id ∧ f.command.kind = .commit ∧
      f.command.op = op := by
  obtain ⟨c, kind, op', hc, hserves⟩ := h.coherent.flights f hf
  have hkey' : transactionKey id op = c.req.key op' := by
    rw [hkey, hserves.command, TransferRequest.command_key]
  obtain ⟨hid, rfl⟩ := transactionKey_inj hkey'
  refine ⟨c, hc, hid.symm, ?_, by rw [hserves.command, TransferRequest.command_op]⟩
  by_contra hne
  simp [Command.moves, hne] at hmoves

/-- A commit of a debit that was given up does nothing after the abort. -/
theorem not_debited {f : Flight} (h : Faithful id net) (hf : f ∈ net.flights)
    (hafter : afterAbort id net f = true) (hc : net.calls[j]? = some c)
    (hid : c.req.transactionID = id) (hst : c.stage.undebited = true) :
    ¬Settled (net.banks.execute f.bank f.command).1 c.req .debit := by
  intro hs
  rcases Banks.settled_execute.mp hs with hs | ⟨-, hkey, hmoves⟩
  · exact h.debit j c hc hid hst hs
  · have hkey' : transactionKey id .debit = f.command.key := hid ▸ hkey
    obtain ⟨d, hd, hdid, hkind, -⟩ := h.settles hf hkey' hmoves
    obtain rfl := h.unique j f.call c d hc hd hid hdid
    have hearly := (h.flights f hf hkind c hc hid).1
    have hgone : net.banks.held f.bank f.command.key = none := by
      simpa [afterAbort, hkind, hkey', hc, Stage.gaveUp_of_undebited hst hearly] using hafter
    exact Banks.held_of_moves hmoves hgone

/-- No commit of the credit is in flight while the call relies on its not being applied. -/
theorem not_credited {f : Flight} (h : Faithful id net) (hf : f ∈ net.flights)
    (hc : net.calls[j]? = some c) (hid : c.req.transactionID = id)
    (hst : c.stage.uncredited = true) :
    ¬Settled (net.banks.execute f.bank f.command).1 c.req .credit := by
  intro hs
  rcases Banks.settled_execute.mp hs with hs | ⟨-, hkey, hmoves⟩
  · exact h.credit j c hc hid hst hs
  · have hkey' : transactionKey id .credit = f.command.key := hid ▸ hkey
    obtain ⟨d, hd, hdid, hkind, hop⟩ := h.settles hf hkey' hmoves
    obtain rfl := h.unique j f.call c d hc hd hid hdid
    have hcredited := (h.flights f hf hkind c hc hid).2 hop
    exact Bool.false_ne_true (hcredited.symm.trans hst)

/-- An answer changes neither the request nor the stage of a call. -/
theorem getElem?_receive {f : Flight} {err : Option Status} {i : ℕ} {d : Call}
    (hd : (net.calls.modify f.call (Network.receive f err))[i]? = some d) :
    ∃ d', net.calls[i]? = some d' ∧ d'.req = d.req ∧ d'.stage = d.stage := by
  obtain ⟨d', hd', heq⟩ := Network.call_of_receive hd
  refine ⟨d', hd', ?_⟩
  rcases heq with rfl | ⟨-, -, rfl⟩ <;> exact ⟨rfl, rfl⟩

/-- A request is executed; if it is a commit of a debit that was given up, after the abort. -/
theorem execute (h : Faithful id net) {i : ℕ} {f : Flight} (hf : net.flights[i]? = some f)
    (hafter : afterAbort id net f = true) (history : List Event) :
    Faithful id ⟨(net.banks.execute f.bank f.command).1,
      net.calls.modify f.call (Network.receive f (net.banks.execute f.bank f.command).2.err),
      net.flights.eraseIdx i, history⟩ := by
  have hmem := List.mem_of_getElem? hf
  have hreqs := Network.requests_receive f (net.banks.execute f.bank f.command).2.err net.calls
  refine ⟨h.coherent.execute hf history, h.oneCall.of_requests hreqs, fun hnone name op => ?_,
    fun k d hd hid hst => ?_, fun k d hd hid hst => ?_, fun f' hf' hk d hd hid => ?_⟩
  · have hnone' := absent_of_requests hreqs hnone
    refine Bool.eq_false_iff.mpr fun hs => ?_
    rcases Banks.settled_execute.mp hs with hs | ⟨-, hkey, hmoves⟩
    · exact Bool.false_ne_true ((h.fresh hnone' name op).symm.trans hs)
    · obtain ⟨c, hc, hid, -⟩ := h.settles hmem hkey hmoves
      exact hnone' f.call c hc hid
  · obtain ⟨d', hd', hreq, hstage⟩ := getElem?_receive hd
    rw [← hreq] at hid ⊢
    exact h.not_debited hmem hafter hd' hid (hstage ▸ hst)
  · obtain ⟨d', hd', hreq, hstage⟩ := getElem?_receive hd
    rw [← hreq] at hid ⊢
    exact h.not_credited hmem hd' hid (hstage ▸ hst)
  · obtain ⟨d', hd', hreq, hstage⟩ := getElem?_receive hd
    rw [← hreq] at hid
    rw [← hstage]
    exact h.flights f' (List.mem_of_mem_eraseIdx hf') hk d' hd' hid

/-- A call reads the answer to its request, or has it fail. -/
theorem goOn (h : Faithful id net) (hc : net.calls[j]? = some c) {err : Option Status}
    (hcoherent : Coherent (net.enter j c (c.stage.next c.req err)))
    (hlanded : notLanded id net c err = true) :
    Faithful id (net.enter j c (c.stage.next c.req err)) := by
  refine h.enter hc hcoherent Stage.early_of_next Stage.uncredited_of_next fun hid hst => ?_
  rcases Stage.undebited_of_next hst with hold | ⟨n, e, hstage, hnext⟩
  · exact h.debit j c hc hid hold
  · simp only [notLanded, hnext] at hlanded
    rw [hstage] at hlanded
    have hnot : net.banks.settled c.req.fromBank (c.req.key .debit) = false := by
      simpa [hid] using hlanded
    exact fun hs => Bool.false_ne_true (hnot.symm.trans hs)

theorem step (h : Faithful id net) (hok : orderly id net a = true) (hs : net.step a = some net') :
    Faithful id net' := by
  rw [orderly, Bool.and_eq_true] at hok
  have hcoherent := h.coherent.step hs
  cases Network.Outcome.of_step hs with
  | start req => exact h.start hok.1
  | execute i f hf =>
    refine h.execute hf ?_ _
    simpa [debitCertain, hf] using hok.2
  | lose i =>
    exact ⟨hcoherent, h.unique, h.fresh, h.debit, h.credit,
      fun f hf => h.flights f (List.mem_of_mem_eraseIdx hf)⟩
  | answer j c err hc hreq herr =>
    refine h.goOn hc hcoherent ?_
    simpa [debitCertain, hc, herr] using hok.2
  | fail j c e hc hreq =>
    refine h.goOn hc hcoherent ?_
    simpa [debitCertain, hc] using hok.2

end Faithful

/-- **All or nothing**: in every run in which the transaction id is used by one call and the
coordinator is right about the debit that it gives up, a call that has returned an error other than
`DataLoss` has moved nothing and never will, and a call that has returned `nil` has moved both
halves. Every balance is what it was, with what other transactions have added and the amounts of the
halves that are applied. -/
theorem all_or_nothing {id : String} {banks : Banks} {net : Network} {acts : List Network.Action}
    (hsound : banks.Sound) (hfresh : ∀ name op, banks.settled name (transactionKey id op) = false)
    (hrun : Run Network.step (orderly id) (.init banks) acts net) {c : Call} (hc : c ∈ net.calls)
    (hid : c.req.transactionID = id) :
    (∀ e, c.stage = .returned (some e) → e.code ≠ .dataLoss →
      applied net c.req .debit = 0 ∧ applied net c.req .credit = 0) ∧
    (c.stage = .returned none → applied net c.req .debit = 1 ∧ applied net c.req .credit = 1) ∧
    ∀ name accountID, net.banks.balance name accountID = (banks.balance name accountID).map
      (· + (addedByOthers net id name accountID + movedBy net c.req .debit name accountID +
        movedBy net c.req .credit name accountID)) := by
  have hfaithful : Faithful id net :=
    hrun.invariant (fun _ _ _ h hok hs => Faithful.step h hok hs) (.init hsound hfresh)
  have hkey : ∀ op, banks.settled (c.req.bank op) (c.req.key op) = false := by
    intro op
    rw [TransferRequest.key, hid]
    exact hfresh _ op
  obtain ⟨j, hj⟩ := List.mem_iff_getElem?.mp hc
  have hcarried : ∀ d ∈ net.calls, d.req.transactionID = c.req.transactionID → d.req = c.req := by
    intro d hd hdid
    obtain ⟨i, hi⟩ := List.mem_iff_getElem?.mp hd
    obtain rfl := hfaithful.unique i j d c hi hj (hdid.trans hid) hid
    rw [Option.some.inj (hi.symm.trans hj)]
  refine ⟨fun e hret hcode => ?_, fun hret => ?_, hid ▸ balance_eq hsound hrun hcarried⟩
  · have hst : c.stage.undebited = true := by simp [hret, Stage.undebited, hcode]
    exact ⟨applied_of_not_settled hrun (hkey _) (hfaithful.debit j c hj hid hst),
      applied_of_not_settled hrun (hkey _)
        (hfaithful.credit j c hj hid (Stage.undebited_le_uncredited hst))⟩
  · have hboth := (hfaithful.coherent.calls j c hj).returned hret
    exact ⟨applied_of_settled hrun (hkey _) hboth.1, applied_of_settled hrun (hkey _) hboth.2⟩

/-- The three commits of the debit are lost, and both halves are released. -/
def lostCommits : List Network.Action :=
  [.start payment, .execute 0, .answer 0, .execute 0, .answer 0,
    .lose 0, .fail 0 ⟨.deadlineExceeded, ""⟩, .lose 0, .fail 0 ⟨.deadlineExceeded, ""⟩,
    .lose 0, .fail 0 ⟨.deadlineExceeded, ""⟩, .execute 0, .answer 0, .execute 0, .answer 0]

theorem all_or_nothing_lost :
    ∃ net c, Run Network.step (orderly "1") (.init twoBanks) lostCommits net ∧ c ∈ net.calls ∧
      c.stage = .returned (some (wrapPhase ⟨.deadlineExceeded, ""⟩
        "debit could not be committed")) ∧
      (applied net c.req .debit = 0 ∧ applied net c.req .credit = 0) ∧
      net.banks.balance "X" "alice" = (twoBanks.balance "X" "alice").map
        (· + (addedByOthers net "1" "X" "alice" + movedBy net c.req .debit "X" "alice" +
          movedBy net c.req .credit "X" "alice")) := by
  obtain ⟨net, hrun, hcalls⟩ := Run.exists_of_exec_map Network.step (orderly "1") (.init twoBanks)
    lostCommits Network.calls [⟨payment, .returned (some (wrapPhase ⟨.deadlineExceeded, ""⟩
      "debit could not be committed")), 8, none⟩] (by decide +kernel)
  have hfresh : ∀ name op, twoBanks.settled name (transactionKey "1" op) = false :=
    fun name _ => not_settled_of_entries (by decide +kernel) name
  have hc : ⟨payment, .returned (some (wrapPhase ⟨.deadlineExceeded, ""⟩
      "debit could not be committed")), 8, none⟩ ∈ net.calls := by simp [hcalls]
  have hall := all_or_nothing (sound_of_entries (by decide +kernel)) hfresh hrun hc rfl
  exact ⟨net, _, hrun, hc, rfl, hall.1 _ rfl (by decide), hall.2.2 "X" "alice"⟩

/-- The first commit of the debit is executed, but no answer to it comes in time, nor to the other
two. -/
def lostAnswers : List Network.Action :=
  [.start payment, .execute 0, .answer 0, .execute 0, .answer 0,
    .execute 0, .fail 0 ⟨.deadlineExceeded, ""⟩, .lose 0, .fail 0 ⟨.deadlineExceeded, ""⟩,
    .lose 0, .fail 0 ⟨.deadlineExceeded, ""⟩, .execute 0, .answer 0, .execute 0, .answer 0]

/-- The call returns an error other than `DataLoss`: `alice` has paid, and `bob` has nothing. -/
theorem debited_without_credit :
    ∃ net, Run Network.step (freshID "1") (.init twoBanks) lostAnswers net ∧
      net.calls.map Call.stage = [.returned (some (wrapPhase ⟨.deadlineExceeded, ""⟩
        "debit could not be committed"))] ∧
      applied net payment .debit = 1 ∧ applied net payment .credit = 0 ∧
      net.banks.balance "X" "alice" = some 90 ∧ net.banks.balance "Y" "bob" = some 0 := by
  obtain ⟨net, hrun, hend⟩ := Run.exists_of_exec_map Network.step (freshID "1") (.init twoBanks)
    lostAnswers
    (fun net => decide (net.calls.map Call.stage = [.returned (some (wrapPhase
        ⟨.deadlineExceeded, ""⟩ "debit could not be committed"))] ∧
      applied net payment .debit = 1 ∧ applied net payment .credit = 0 ∧
      net.banks.balance "X" "alice" = some 90 ∧ net.banks.balance "Y" "bob" = some 0))
    true (by decide +kernel)
  exact ⟨net, hrun, of_decide_eq_true hend⟩

end PaxosPayments.Gateway
