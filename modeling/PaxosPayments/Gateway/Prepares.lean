import PaxosPayments.Gateway.AllOrNothing

/-!
# Reservations after a failed prepare

A call that fails before it commits. When the debit cannot be prepared it returns at once, and when
the credit cannot be prepared it releases the debit. Neither releases the half whose prepare has
failed. If that prepare was refused or did not arrive there is nothing to release; if it was
executed and the reply was lost its reservation stays (`released_iff`, `left_behind`).

Each half of the transfer goes through the states of `Leg`, and the stage of the call says in which
they are (`Stands`).
-/

namespace PaxosPayments.Gateway

open Bank

/-- The error of a call that could not prepare one half. -/
def prepareFailed (e : Status) : Operation → Status
  | .debit => wrapPhase e "debit could not be prepared"
  | .credit => wrapPhase e "credit could not be prepared"

theorem prepareFailed_inj {e e' : Status} {op op' : Operation}
    (h : prepareFailed e op = prepareFailed e' op') : op = op' := by
  have hlist := congrArg (fun s : Status => s.message.toList) h
  cases op <;> cases op' <;> simp [prepareFailed, wrapPhase] at hlist ⊢

/-- The bank of one half has executed its prepare, and has accepted it. -/
def Landed (net : Network) (req : TransferRequest) (op : Operation) : Prop :=
  ∃ e ∈ net.history,
    e.bank = req.bank op ∧ e.command = req.command .prepare op ∧ e.result.err = none

/-- The aborts of the transaction are not lost. -/
def abortsArrive (id : String) (net : Network) : Network.Action → Bool
  | .lose i => (net.flights[i]?).all fun f =>
      f.command.kind ≠ .abort || f.command.key ≠ transactionKey id f.command.op
  | _ => true

/-- The call of the transaction does not come to the commit: it does not learn that both banks have
accepted. -/
def failsEarly (id : String) (net : Network) : Network.Action → Bool
  | .answer j => (net.calls[j]?).all fun c =>
      c.req.transactionID ≠ id || c.stage ≠ .prepareCredit || c.answer ≠ some none
  | _ => true

/-- The transaction has one call, which fails before it commits and whose aborts arrive. -/
def phaseOne (id : String) (net : Network) (a : Network.Action) : Bool :=
  freshID id net a && abortsArrive id net a && failsEarly id net a

/-! ## What banks hold after a prepare and an abort -/

namespace Banks

variable {banks : Banks} {name : String} {c : Command}

theorem held_prepare (hk : c.kind = .prepare) :
    (banks.execute name c).1.held name c.key ≠ none ↔
      banks.held name c.key ≠ none ∨ (banks.execute name c).2.err = none := by
  cases hp : banks.lookup name with
  | none =>
    have hresult : (banks.execute name c).2.err ≠ none := by
      simp [execute, hp, ApplyResult.err, ApplyResult.failure]
    simp [(execute_of_lookup_none hp c).1, hresult]
  | some p =>
    unfold held
    rw [lookup_execute_self hp, execute_of_lookup hp, hp]
    rcases p.apply_prepare_cases hk with ⟨herr, hheld⟩ | ⟨herr, hsame⟩
    · exact iff_of_true hheld (Or.inr herr)
    · rw [hsame]
      exact (or_iff_left herr).symm

theorem held_abort (hk : c.kind = .abort) : (banks.execute name c).1.held name c.key = none := by
  unfold held
  cases hp : banks.lookup name with
  | none => rw [(execute_of_lookup_none hp c).1, hp]; rfl
  | some p =>
    rw [lookup_execute_self hp, Participant.apply, hk]
    exact Finmap.lookup_erase _ _

end Banks

/-! ## The halves of a transfer -/

/-- The bank of one half has a reservation for it. -/
def Reserved (net : Network) (req : TransferRequest) (op : Operation) : Prop :=
  net.banks.held (req.bank op) (req.key op) ≠ none

/-- A request of the call about one half is in flight. -/
def InFlight (net : Network) (i : ℕ) (kind : CmdKind) (op : Operation) : Prop :=
  ∃ f ∈ net.flights, f.call = i ∧ f.command.kind = kind ∧ f.command.op = op

/-- Where one half of a transfer is. -/
inductive LegState
  | unsent
  /-- Its prepare has been sent. -/
  | sent
  /-- Its prepare has been answered with success. -/
  | accepted
  /-- Its abort has been sent. -/
  | released
  deriving DecidableEq

/-- What holds of one half of a transfer in such a state. -/
def Leg (net : Network) (i : ℕ) (req : TransferRequest) (op : Operation) : LegState → Prop
  | .unsent => ¬Reserved net req op ∧ ¬Landed net req op ∧ ∀ kind, ¬InFlight net i kind op
  | .sent => (Reserved net req op ↔ Landed net req op) ∧
      ∀ kind, InFlight net i kind op → kind = .prepare
  | .accepted => ∀ kind, ¬InFlight net i kind op
  | .released => (Reserved net req op → InFlight net i .abort op) ∧
      ∀ kind, InFlight net i kind op → kind = .abort

/-- The states of the two halves. -/
def legs (debit credit : LegState) : Operation → LegState
  | .debit => debit
  | .credit => credit

/-- The stages of a call that does not come to the commit, and the states of its halves. -/
inductive Stands : Stage → (Operation → LegState) → Prop
  | unregistered (err : Status) : Stands (.returned (some err)) (legs .unsent .unsent)
  | prepareDebit : Stands .prepareDebit (legs .sent .unsent)
  | debitFailed (e : Status) :
    Stands (.returned (some (prepareFailed e .debit))) (legs .sent .unsent)
  | prepareCredit : Stands .prepareCredit (legs .accepted .sent)
  | undoDebit (e : Status) : Stands (.undoDebit (prepareFailed e .credit)) (legs .released .sent)
  | creditFailed (e : Status) :
    Stands (.returned (some (prepareFailed e .credit))) (legs .released .sent)

section Legs

variable {net net' : Network} {i j k : ℕ} {c : Call} {f : Flight} {req : TransferRequest}
  {kind : CmdKind} {op : Operation} {s : LegState} {stage : Stage}

theorem Leg.congr (h : Leg net i req op s) (hreserved : Reserved net' req op ↔ Reserved net req op)
    (hlanded : Landed net' req op ↔ Landed net req op)
    (hflight : ∀ kind, InFlight net' i kind op ↔ InFlight net i kind op) :
    Leg net' i req op s := by
  cases s <;> simpa only [Leg, hreserved, hlanded, hflight] using h

theorem inFlight_enter : InFlight (net.enter j c stage) i kind op ↔
    InFlight net i kind op ∨ i = j ∧ stage.request = some (kind, op) := by
  constructor
  · rintro ⟨f, hf, hcall, hkind, hop⟩
    rcases Network.flight_of_enter hf with hf | ⟨kind', op', hreq, rfl⟩
    · exact Or.inl ⟨f, hf, hcall, hkind, hop⟩
    · rw [TransferRequest.command_kind] at hkind
      rw [TransferRequest.command_op] at hop
      exact Or.inr ⟨hcall.symm, hkind ▸ hop ▸ hreq⟩
  · rintro (⟨f, hf, h⟩ | ⟨rfl, hreq⟩)
    · exact ⟨f, List.mem_append_left _ hf, h⟩
    · refine ⟨⟨i, c.turn + 1, c.req.bank op, c.req.command kind op⟩, ?_, rfl, by simp, by simp⟩
      simp [Network.enter, hreq]

/-- How many requests of the call are in flight. -/
def pending (net : Network) (i : ℕ) : ℕ := net.flights.countP fun f => f.call = i

theorem not_inFlight_of_pending (h : pending net i = 0) : ¬InFlight net i kind op := by
  rintro ⟨f, hf, hcall, -⟩
  exact List.countP_eq_zero.mp h f hf (by simpa using hcall)

theorem pending_enter : pending (net.enter j c stage) i =
    pending net i + if i = j ∧ stage.request ≠ none then 1 else 0 := by
  unfold pending Network.enter
  rw [List.countP_append]
  cases stage.request with
  | none => simp
  | some r => simp [List.countP_cons, eq_comm]

theorem pending_eraseIdx (hflights : net'.flights = net.flights.eraseIdx k)
    (hf : net.flights[k]? = some f) :
    pending net i = pending net' i + if f.call = i then 1 else 0 := by
  unfold pending
  rw [hflights, ← (Table.perm_eraseIdx hf).countP_eq, List.countP_cons]
  simp

/-- Requests about something else are taken out of flight. -/
theorem inFlight_of_eraseIdx (hflights : net'.flights = net.flights.eraseIdx k)
    (hf : net.flights[k]? = some f) (hne : f.call = i → f.command.op ≠ op) :
    InFlight net' i kind op ↔ InFlight net i kind op := by
  unfold InFlight
  rw [hflights]
  constructor
  · rintro ⟨g, hg, h⟩
    exact ⟨g, List.mem_of_mem_eraseIdx hg, h⟩
  · rintro ⟨g, hg, hcall, hkind, hop⟩
    rcases (Table.mem_iff_eraseIdx hf).mp hg with rfl | hg
    · exact absurd hop (hne hcall)
    · exact ⟨g, hg, hcall, hkind, hop⟩

theorem InFlight.of_eraseIdx (hflights : net'.flights = net.flights.eraseIdx k)
    (h : InFlight net' i kind op) : InFlight net i kind op := by
  obtain ⟨g, hg, h⟩ := h
  rw [hflights] at hg
  exact ⟨g, List.mem_of_mem_eraseIdx hg, h⟩

theorem Leg.enter (h : Leg net i req op s)
    (hreq : i = j → ∀ kind, stage.request ≠ some (kind, op)) :
    Leg (net.enter j c stage) i req op s :=
  h.congr Iff.rfl Iff.rfl fun kind =>
    inFlight_enter.trans (or_iff_left fun hnew => hreq hnew.1 kind hnew.2)

theorem Leg.sent (h : Leg net i req op .unsent) : Leg net i req op .sent :=
  ⟨iff_of_false h.1 h.2.1, fun kind hin => absurd hin (h.2.2 kind)⟩

/-- The prepare of the half is sent. -/
theorem Leg.enter_prepare (h : Leg net j req op .unsent)
    (hreq : stage.request = some (.prepare, op)) : Leg (net.enter j c stage) j req op .sent := by
  refine ⟨iff_of_false h.1 h.2.1, fun kind hin => ?_⟩
  rcases inFlight_enter.mp hin with hin | ⟨-, hnew⟩
  · exact absurd hin (h.2.2 kind)
  · exact (Prod.mk.inj (Option.some.inj (hnew.symm.trans hreq))).1

/-- A request of the half is lost, and it is not an abort. -/
theorem Leg.lose (h : Leg net i req op s) (hbanks : net'.banks = net.banks)
    (hhistory : net'.history = net.history) (hflights : net'.flights = net.flights.eraseIdx k)
    (hf : net.flights[k]? = some f) (hcall : f.call = i) (hop : f.command.op = op)
    (hkind : f.command.kind ≠ .abort) : Leg net' i req op s := by
  have hin : InFlight net i f.command.kind op := ⟨f, List.mem_of_getElem? hf, hcall, rfl, hop⟩
  have hreserved : Reserved net' req op ↔ Reserved net req op := by
    rw [Reserved, hbanks, Reserved]
  have hlanded : Landed net' req op ↔ Landed net req op := by
    rw [Landed, hhistory, Landed]
  cases s with
  | unsent => exact absurd hin (h.2.2 _)
  | sent => exact ⟨hreserved.trans (h.1.trans hlanded.symm), fun kind hk =>
      h.2 kind (hk.of_eraseIdx hflights)⟩
  | accepted => exact absurd hin (h _)
  | released => exact absurd (h.2 _ hin) hkind

section Execute

variable (hbanks : net'.banks = (net.banks.execute f.bank f.command).1)
  (hhistory : net'.history =
    ⟨f.bank, f.command, (net.banks.execute f.bank f.command).2⟩ :: net.history)
  (hflights : net'.flights = net.flights.eraseIdx k) (hf : net.flights[k]? = some f)

include hbanks hhistory hflights hf

/-- A request about something else is executed. -/
theorem Leg.execute_ne (h : Leg net i req op s) (hkey : f.command.key ≠ req.key op)
    (hne : f.call = i → f.command.op ≠ op) : Leg net' i req op s := by
  refine h.congr ?_ ?_ fun kind => inFlight_of_eraseIdx hflights hf hne
  · rw [Reserved, hbanks, Banks.held_execute_ne (Or.inr hkey.symm), Reserved]
  · unfold Landed
    rw [hhistory]
    constructor
    · rintro ⟨e, he, hbank, hcommand, herr⟩
      rcases List.mem_cons.mp he with rfl | he
      · exact absurd (by rw [← TransferRequest.command_key req .prepare op, ← hcommand]) hkey
      · exact ⟨e, he, hbank, hcommand, herr⟩
    · rintro ⟨e, he, h⟩
      exact ⟨e, List.mem_cons_of_mem _ he, h⟩

/-- A request of the half is executed. -/
theorem Leg.execute (h : Leg net i req op s) (hcall : f.call = i) (hbank : f.bank = req.bank op)
    (hcommand : f.command = req.command kind op) : Leg net' i req op s := by
  have hkey : f.command.key = req.key op := by rw [hcommand, TransferRequest.command_key]
  have hkind : f.command.kind = kind := by rw [hcommand, TransferRequest.command_kind]
  have hin : InFlight net i kind op :=
    ⟨f, List.mem_of_getElem? hf, hcall, hkind, by rw [hcommand, TransferRequest.command_op]⟩
  cases s with
  | unsent => exact absurd hin (h.2.2 _)
  | sent =>
    obtain rfl := h.2 kind hin
    refine ⟨?_, fun kind' hk => h.2 kind' (hk.of_eraseIdx hflights)⟩
    have hreserved : Reserved net' req op ↔ Reserved net req op ∨
        (net.banks.execute f.bank f.command).2.err = none := by
      rw [Reserved, hbanks, ← hbank, ← hkey, Banks.held_prepare hkind, Reserved, hbank, hkey]
    rw [hreserved, h.1]
    unfold Landed
    rw [hhistory]
    constructor
    · rintro (⟨e, he, hlanded⟩ | herr)
      · exact ⟨e, List.mem_cons_of_mem _ he, hlanded⟩
      · exact ⟨_, List.mem_cons_self, hbank, hcommand, herr⟩
    · rintro ⟨e, he, hlanded⟩
      rcases List.mem_cons.mp he with rfl | he
      · exact Or.inr hlanded.2.2
      · exact Or.inl ⟨e, he, hlanded⟩
  | accepted => exact absurd hin (h _)
  | released =>
    obtain rfl := h.2 kind hin
    refine ⟨fun hreserved => absurd ?_ hreserved, fun kind' hk =>
      h.2 kind' (hk.of_eraseIdx hflights)⟩
    rw [hbanks, ← hbank, ← hkey]
    exact Banks.held_abort hkind

end Execute

theorem Stage.next_ne_prepareDebit {err : Option Status} :
    stage.next req err ≠ .prepareDebit := by
  intro h
  cases stage with
  | commitDebit n =>
    rcases Stage.next_commitDebit n with hn | ⟨m, hn⟩ | ⟨e, hn⟩ <;> cases hn.symm.trans h
  | commitCredit n =>
    rcases Stage.next_commitCredit n with hn | ⟨m, hn⟩ | hn <;> cases hn.symm.trans h
  | prepareDebit | prepareCredit | undoDebit | abortDebit | abortCredit | returned =>
    cases err <;> cases h

/-- The call goes on with the answer to its request. -/
theorem Stands.next {st : Operation → LegState} {err : Option Status}
    (hst : Stands c.stage st) (hlegs : ∀ op, Leg net j c.req op (st op))
    (hreq : c.stage.request ≠ none)
    (hquiet : c.stage = .prepareDebit → err = none → ∀ kind op, ¬InFlight net j kind op)
    (hearly : c.stage = .prepareCredit → err ≠ none) :
    ∃ st', Stands (c.stage.next c.req err) st' ∧
      ∀ op, Leg (net.enter j c (c.stage.next c.req err)) j c.req op (st' op) := by
  generalize hstage : c.stage = stage at hst hreq hquiet hearly ⊢
  cases hst with
  | unregistered | debitFailed | creditFailed => exact absurd rfl hreq
  | prepareDebit =>
    cases err with
    | some e => exact ⟨_, .debitFailed e, fun op => (hlegs op).enter fun _ _ => nofun⟩
    | none =>
      refine ⟨_, .prepareCredit, fun op => ?_⟩
      cases op with
      | debit =>
        intro kind hin
        rcases inFlight_enter.mp hin with hin | ⟨-, hnew⟩
        · exact hquiet rfl rfl kind _ hin
        · cases hnew
      | credit => exact (hlegs .credit).enter_prepare rfl
  | prepareCredit =>
    cases err with
    | none => exact absurd rfl (hearly rfl)
    | some e =>
      refine ⟨_, .undoDebit e, fun op => ?_⟩
      cases op with
      | debit =>
        have hnone : ∀ kind, ¬InFlight net j kind .debit := hlegs .debit
        refine ⟨fun _ => inFlight_enter.mpr (Or.inr ⟨rfl, rfl⟩), fun kind hin => ?_⟩
        rcases inFlight_enter.mp hin with hin | ⟨-, hnew⟩
        · exact absurd hin (hnone kind)
        · cases hnew
          rfl
      | credit => exact (hlegs .credit).enter fun _ _ => nofun
  | undoDebit e => exact ⟨_, .creditFailed e, fun op => (hlegs op).enter fun _ _ => nofun⟩

end Legs

/-- Requests in flight have a call. -/
theorem Coherent.pending_length {net : Network} (h : Coherent net) :
    pending net net.calls.length = 0 := by
  refine List.countP_eq_zero.mpr fun f hf hcall => ?_
  obtain ⟨c, -, -, hc, -⟩ := h.flights f hf
  rw [of_decide_eq_true hcall, List.getElem?_eq_none le_rfl] at hc
  cases hc

/-! ## The call of the transaction -/

/-- The halves of the transaction `id` are where the stage of its call says. -/
structure Traced (id : String) (net : Network) : Prop where
  coherent : Coherent net
  unique : OneCall id net.calls
  fresh : (∀ c ∈ net.calls, c.req.transactionID ≠ id) → ∀ op,
    (∀ name, net.banks.held name (transactionKey id op) = none) ∧
      ∀ e ∈ net.history, e.command.key ≠ transactionKey id op
  place : ∀ c ∈ net.calls, c.req.transactionID = id → ∀ name op,
    net.banks.held name (c.req.key op) ≠ none → name = c.req.bank op
  stands : ∀ (i : ℕ) (c : Call), net.calls[i]? = some c → c.req.transactionID = id →
    ∃ st, Stands c.stage st ∧ ∀ op, Leg net i c.req op (st op)
  /-- The first request is in flight, or has been answered, or neither. -/
  once : ∀ (i : ℕ) (c : Call), net.calls[i]? = some c → c.req.transactionID = id →
    c.stage = .prepareDebit →
      pending net i + (if c.answer = none then 0 else 1) ≤ 1

namespace Traced

variable {id : String} {net net' : Network} {a : Network.Action} {c : Call} {i j : ℕ}

theorem init {banks : Banks} (hsound : banks.Sound)
    (hfresh : ∀ name op, banks.held name (transactionKey id op) = none) :
    Traced id (.init banks) where
  coherent := .init hsound
  unique i j c d hc := by simp [Network.init] at hc
  fresh _ op := ⟨fun name => hfresh name op, by simp [Network.init]⟩
  place c hc := by simp [Network.init] at hc
  stands i c hc := by simp [Network.init] at hc
  once i c hc := by simp [Network.init] at hc

/-- A request about a half of the transaction belongs to its call. -/
theorem serves (h : Traced id net) {f : Flight} (hf : f ∈ net.flights) {op : Operation}
    (hkey : f.command.key = transactionKey id op) :
    ∃ c kind, net.calls[f.call]? = some c ∧ c.req.transactionID = id ∧ f.bank = c.req.bank op ∧
      f.command = c.req.command kind op := by
  obtain ⟨c, kind, op', hc, hserves⟩ := h.coherent.flights f hf
  have hkey' : c.req.key op' = transactionKey id op := by
    rw [← hkey, hserves.command, TransferRequest.command_key]
  obtain ⟨hid, rfl⟩ := transactionKey_inj hkey'
  exact ⟨c, kind, hc, hid, hserves.bank, hserves.command⟩

/-- A call goes on to a stage that says where its halves are. -/
theorem enter (h : Traced id net) (hc : net.calls[j]? = some c) {stage : Stage}
    (hcoherent : Coherent (net.enter j c stage))
    (hstands : c.req.transactionID = id →
      ∃ st, Stands stage st ∧ ∀ op, Leg (net.enter j c stage) j c.req op (st op))
    (honce : stage = .prepareDebit → pending net j = 0) :
    Traced id (net.enter j c stage) := by
  obtain ⟨hj, -⟩ := List.getElem?_eq_some_iff.mp hc
  have hreqs : (net.enter j c stage).calls.map (·.req) = net.calls.map (·.req) :=
    Network.requests_enter hc
  have hmem : ∀ d ∈ (net.enter j c stage).calls, ∃ d' ∈ net.calls, d'.req = d.req := by
    intro d hd
    rw [← List.mem_map, ← hreqs]
    exact List.mem_map_of_mem hd
  refine ⟨hcoherent, h.unique.of_requests hreqs, fun hnone => h.fresh fun d hd hid => ?_,
    fun d hd hid => ?_, fun i d hd hid => ?_, fun i d hd hid hstage => ?_⟩
  · obtain ⟨d', hd', hreq⟩ := List.mem_map.mp (hreqs ▸ List.mem_map_of_mem hd)
    exact hnone d' hd' (hreq ▸ hid)
  · obtain ⟨d', hd', hreq⟩ := hmem d hd
    rw [← hreq] at hid ⊢
    exact h.place d' hd' hid
  · rw [Network.getElem?_enter hj] at hd
    split_ifs at hd with hij
    · obtain rfl := Option.some.inj hd
      rw [hij]
      exact hstands hid
    · obtain ⟨st, hst, hlegs⟩ := h.stands i d hd hid
      exact ⟨st, hst, fun op => (hlegs op).enter fun hi => absurd hi hij⟩
  · rw [Network.getElem?_enter hj] at hd
    rw [pending_enter]
    split_ifs at hd with hij
    · obtain rfl := Option.some.inj hd
      rw [hij, honce hstage, if_pos rfl]
      split_ifs <;> omega
    · rw [if_neg fun h => hij h.1]
      exact h.once i d hd hid hstage

/-- Nothing is known of a transaction that has no call. -/
theorem unsent (h : Traced id net) {req : TransferRequest} (hid : req.transactionID = id)
    (hnone : ∀ c ∈ net.calls, c.req.transactionID ≠ id) (op : Operation) :
    (∀ name, net.banks.held name (req.key op) = none) ∧
      Leg net net.calls.length req op .unsent := by
  subst hid
  obtain ⟨hheld, hhistory⟩ := h.fresh hnone op
  refine ⟨hheld, fun hreserved => hreserved (hheld _), ?_, fun kind =>
    not_inFlight_of_pending h.coherent.pending_length⟩
  rintro ⟨e, he, -, hcommand, -⟩
  refine hhistory e he ?_
  rw [hcommand, TransferRequest.command_key]
  rfl

/-- A call is added that has not entered its first stage. -/
theorem addCall (h : Traced id net) {req : TransferRequest}
    (hother : req.transactionID = id → ∀ c ∈ net.calls, c.req.transactionID ≠ id) :
    Traced id { net with calls := net.calls ++ [Network.newCall req] } := by
  refine ⟨h.coherent.addCall req, h.unique.concat hother, fun hall => h.fresh fun c hc =>
      hall c (List.mem_append_left _ hc), fun c hc hid name op hheld => ?_,
    fun i c hc hid => ?_, fun i c hc hid hstage => ?_⟩
  · rcases List.mem_append.mp hc with hc | hc
    · exact h.place c hc hid name op hheld
    · obtain rfl := List.mem_singleton.mp hc
      exact absurd ((h.unsent hid (hother hid) op).1 name) hheld
  · rcases Table.getElem?_concat_eq_some.mp hc with hc | ⟨rfl, rfl⟩
    · exact h.stands i c hc hid
    · refine ⟨_, .prepareDebit, fun op => ?_⟩
      obtain ⟨-, hunsent⟩ := h.unsent hid (hother hid) op
      cases op with
      | debit => exact hunsent.sent
      | credit => exact hunsent
  · rcases Table.getElem?_concat_eq_some.mp hc with hc | ⟨rfl, rfl⟩
    · exact h.once i c hc hid hstage
    · have hnone : pending net net.calls.length = 0 := h.coherent.pending_length
      exact (Nat.le_of_eq hnone).trans (Nat.zero_le 1)

/-- A call of its own begins. -/
theorem start (h : Traced id net) {req : TransferRequest}
    (hfresh : freshID id net (.start req) = true) : Traced id (net.start req) := by
  have hother : req.transactionID = id → ∀ c ∈ net.calls, c.req.transactionID ≠ id := by
    intro hid c hc
    have hall := by simpa [freshID, hid] using hfresh
    exact hall c hc
  refine (h.addCall hother).enter (by simp) (h.coherent.start req) (fun hid => ?_) fun _ =>
    h.coherent.pending_length
  have hunsent : ∀ op, Leg { net with calls := net.calls ++ [Network.newCall req] }
      net.calls.length req op .unsent := fun op => (h.unsent hid (hother hid) op).2
  unfold Network.entry
  split_ifs
  · refine ⟨_, .unregistered _, fun op => ?_⟩
    cases op <;> exact (hunsent _).enter fun _ _ hrequest => by cases hrequest
  · refine ⟨_, .unregistered _, fun op => ?_⟩
    cases op <;> exact (hunsent _).enter fun _ _ hrequest => by cases hrequest
  · refine ⟨_, .prepareDebit, fun op => ?_⟩
    cases op with
    | debit => exact (hunsent .debit).enter_prepare rfl
    | credit => exact (hunsent .credit).enter fun _ _ hrequest => by cases hrequest

/-- A request of the call of the transaction is about one of its halves. -/
theorem command_of_call (h : Traced id net) {f : Flight} (hf : f ∈ net.flights)
    (hc : net.calls[f.call]? = some c) : f.command.key = c.req.key f.command.op := by
  obtain ⟨c', kind, op, hc', hserves⟩ := h.coherent.flights f hf
  obtain rfl := Option.some.inj (hc.symm.trans hc')
  rw [hserves.command, TransferRequest.command_key, TransferRequest.command_op]

theorem lose (h : Traced id net) {k : ℕ} (hok : abortsArrive id net (.lose k) = true) :
    Traced id { net with flights := net.flights.eraseIdx k } := by
  cases hf : net.flights[k]? with
  | none =>
    rw [List.eraseIdx_of_length_le (List.getElem?_eq_none_iff.mp hf)]
    exact h
  | some f =>
    refine ⟨h.coherent.lose k, h.unique, h.fresh, h.place, fun i c hc hid => ?_,
      fun i c hc hid hstage => ?_⟩
    · obtain ⟨st, hst, hlegs⟩ := h.stands i c hc hid
      refine ⟨st, hst, fun op => ?_⟩
      by_cases hown : f.call = i ∧ f.command.op = op
      · obtain ⟨rfl, rfl⟩ := hown
        have hkey := h.command_of_call (List.mem_of_getElem? hf) hc
        refine (hlegs f.command.op).lose rfl rfl rfl hf rfl rfl fun hkind => ?_
        rw [TransferRequest.key, hid] at hkey
        simp [abortsArrive, hf, hkind, hkey] at hok
      · exact (hlegs op).congr Iff.rfl Iff.rfl fun kind =>
          inFlight_of_eraseIdx rfl hf fun hcall hop => hown ⟨hcall, hop⟩
    · have hcount : pending net i =
          pending { net with flights := net.flights.eraseIdx k } i + if f.call = i then 1 else 0 :=
        pending_eraseIdx rfl hf
      have honce := h.once i c hc hid hstage
      omega

section Execute

variable {k : ℕ} {f : Flight} (h : Traced id net) (hf : net.flights[k]? = some f)
  (hbanks : net'.banks = (net.banks.execute f.bank f.command).1)
  (hcalls : net'.calls =
    net.calls.modify f.call (Network.receive f (net.banks.execute f.bank f.command).2.err))
  (hflights : net'.flights = net.flights.eraseIdx k)
  (hhistory : net'.history =
    ⟨f.bank, f.command, (net.banks.execute f.bank f.command).2⟩ :: net.history)

include h hf hbanks hcalls hhistory

theorem fresh_execute (hnone : ∀ c ∈ net'.calls, c.req.transactionID ≠ id) (op : Operation) :
    (∀ name, net'.banks.held name (transactionKey id op) = none) ∧
      ∀ e ∈ net'.history, e.command.key ≠ transactionKey id op := by
  have hreqs : net'.calls.map (·.req) = net.calls.map (·.req) :=
    hcalls ▸ Network.requests_receive f _ net.calls
  have hold : ∀ c ∈ net.calls, c.req.transactionID ≠ id := by
    intro c hc
    obtain ⟨c', hc', hreq⟩ := List.mem_map.mp (hreqs ▸ List.mem_map_of_mem hc)
    exact hreq ▸ hnone c' hc'
  have hkey : f.command.key ≠ transactionKey id op := by
    intro hkey
    obtain ⟨c, -, hc, hid, -⟩ := h.serves (List.mem_of_getElem? hf) hkey
    exact hold c (List.mem_of_getElem? hc) hid
  obtain ⟨hheld, hevents⟩ := h.fresh hold op
  refine ⟨fun name => ?_, fun e he => ?_⟩
  · rw [hbanks, Banks.held_execute_ne (Or.inr hkey.symm), hheld]
  · rw [hhistory] at he
    rcases List.mem_cons.mp he with rfl | he
    · exact hkey
    · exact hevents e he

include hflights

theorem execute (hcoherent : Coherent net') : Traced id net' := by
  have hmem := List.mem_of_getElem? hf
  have hreqs : net'.calls.map (·.req) = net.calls.map (·.req) :=
    hcalls ▸ Network.requests_receive f _ net.calls
  have hown : ∀ (i : ℕ) (c : Call) (op : Operation), net.calls[i]? = some c →
      c.req.transactionID = id → f.command.key = c.req.key op →
      f.call = i ∧ f.bank = c.req.bank op ∧ ∃ kind, f.command = c.req.command kind op := by
    intro i c op hc hid hkey
    rw [TransferRequest.key, hid] at hkey
    obtain ⟨c', kind, hc', hid', hbank, hcommand⟩ := h.serves hmem hkey
    obtain rfl := h.unique _ _ _ _ hc' hc hid' hid
    obtain rfl := Option.some.inj (hc'.symm.trans hc)
    exact ⟨rfl, hbank, kind, hcommand⟩
  refine ⟨hcoherent, h.unique.of_requests hreqs, h.fresh_execute hf hbanks hcalls hhistory,
    fun c hc hid name op hheld => ?_, fun i c hc hid => ?_, fun i c hc hid hstage => ?_⟩
  · obtain ⟨c', hc', hreq⟩ := List.mem_map.mp (hreqs ▸ List.mem_map_of_mem hc)
    rw [← hreq] at hid hheld ⊢
    obtain ⟨i, hi⟩ := List.mem_iff_getElem?.mp hc'
    by_cases hkey : f.command.key = c'.req.key op
    · by_cases hname : name = f.bank
      · rw [hname]
        exact (hown i c' op hi hid hkey).2.1
      · rw [hbanks, Banks.held_execute_ne (Or.inl hname)] at hheld
        exact h.place c' hc' hid name op hheld
    · rw [hbanks, Banks.held_execute_ne (Or.inr (Ne.symm hkey))] at hheld
      exact h.place c' hc' hid name op hheld
  · obtain ⟨c', hc', hreq, hstage⟩ := Faithful.getElem?_receive (hcalls ▸ hc)
    rw [← hreq] at hid ⊢
    rw [← hstage]
    obtain ⟨st, hst, hlegs⟩ := h.stands i c' hc' hid
    refine ⟨st, hst, fun op => ?_⟩
    by_cases hkey : f.command.key = c'.req.key op
    · obtain ⟨hcall, hbank, kind, hcommand⟩ := hown i c' op hc' hid hkey
      exact (hlegs op).execute hbanks hhistory hflights hf hcall hbank hcommand
    · refine (hlegs op).execute_ne hbanks hhistory hflights hf hkey fun hcall hop => hkey ?_
      rw [h.command_of_call hmem (hcall ▸ hc'), hop]
  · have hcount : pending net i = pending net' i + if f.call = i then 1 else 0 :=
      pending_eraseIdx hflights hf
    obtain ⟨c', hc', hanswer⟩ := Network.call_of_receive (hcalls ▸ hc)
    rcases hanswer with rfl | ⟨hi, -, rfl⟩
    · have honce := h.once i c hc' hid hstage
      omega
    · have honce := h.once i c' hc' hid hstage
      rw [if_pos hi.symm] at hcount
      simp only [reduceCtorEq, if_false]
      omega

end Execute

theorem step (h : Traced id net) (hok : phaseOne id net a = true) (hs : net.step a = some net') :
    Traced id net' := by
  simp only [phaseOne, Bool.and_eq_true] at hok
  obtain ⟨⟨hfresh, harrive⟩, hearly⟩ := hok
  have hcoherent := h.coherent.step hs
  have hnext : ∀ (j : ℕ) (c : Call) (err : Option Status), net.calls[j]? = some c →
      c.stage.request ≠ none → (err = none → c.answer ≠ none) →
      (c.req.transactionID = id → c.stage = .prepareCredit → err ≠ none) →
      Coherent (net.enter j c (c.stage.next c.req err)) →
      Traced id (net.enter j c (c.stage.next c.req err)) := by
    intro j c err hc hreq hanswer herr hcoherent
    refine h.enter hc hcoherent (fun hid => ?_) fun hstage => ?_
    · obtain ⟨st, hst, hlegs⟩ := h.stands j c hc hid
      refine hst.next hlegs hreq (fun hstage hnone kind op => ?_) (herr hid)
      have honce := h.once j c hc hid hstage
      rw [if_neg (hanswer hnone)] at honce
      exact not_inFlight_of_pending (by omega)
    · exact absurd hstage Stage.next_ne_prepareDebit
  cases Network.Outcome.of_step hs with
  | start req => exact h.start hfresh
  | execute k f hf => exact h.execute hf rfl rfl rfl rfl hcoherent
  | lose k => exact h.lose harrive
  | answer j c err hc hreq herr =>
    refine hnext j c err hc hreq (fun _ => by simp [herr]) (fun hid hstage hnone => ?_) hcoherent
    simp [failsEarly, hc, hid, hstage, herr, hnone] at hearly
  | fail j c e hc hreq => exact hnext j c (some e) hc hreq nofun (fun _ _ => nofun) hcoherent

end Traced

/-- **A failed prepare leaves no reservation behind** when it was refused or has not arrived, and
not otherwise: in every run in which the transaction has one call, which fails before it commits and
whose aborts arrive, when the call has returned and its requests are no longer in flight. -/
theorem released_iff {id : String} {banks : Banks} {net : Network} {acts : List Network.Action}
    (hsound : banks.Sound) (hfresh : ∀ name op, banks.held name (transactionKey id op) = none)
    (hrun : Run Network.step (phaseOne id) (.init banks) acts net) {i : ℕ} {c : Call}
    (hc : net.calls[i]? = some c) (hid : c.req.transactionID = id) {err : Status}
    (hret : c.stage = .returned (some err)) (hquiet : ∀ f ∈ net.flights, f.call ≠ i) :
    (∀ name op, net.banks.held name (c.req.key op) = none) ↔
      ¬∃ e op, err = prepareFailed e op ∧ Landed net c.req op := by
  have h : Traced id net :=
    hrun.invariant (fun _ _ _ h hok hs => Traced.step h hok hs) (.init hsound hfresh)
  obtain ⟨st, hst, hlegs⟩ := h.stands i c hc hid
  have hnone : ∀ kind op, ¬InFlight net i kind op := fun kind op ⟨f, hf, hcall, _⟩ =>
    hquiet f hf hcall
  have hfree : (∀ name op, net.banks.held name (c.req.key op) = none) ↔
      ∀ op, ¬Reserved net c.req op := by
    refine ⟨fun hall op hheld => hheld (hall _ op), fun hall name op => ?_⟩
    by_contra hheld
    rw [h.place c (List.mem_of_getElem? hc) hid name op hheld] at hheld
    exact hall op hheld
  rw [hfree]
  rw [hret] at hst
  cases hst with
  | unregistered =>
    have hunsent : ∀ op, Leg net i c.req op .unsent := fun op => by cases op <;> exact hlegs _
    refine iff_of_true (fun op => (hunsent op).1) ?_
    rintro ⟨e, op, -, hlanded⟩
    exact (hunsent op).2.1 hlanded
  | debitFailed e =>
    obtain ⟨hdebit, -⟩ := hlegs .debit
    obtain ⟨hcredit, -⟩ := hlegs .credit
    constructor
    · rintro hall ⟨e', op, herr, hlanded⟩
      obtain rfl := prepareFailed_inj herr
      exact hall _ (hdebit.mpr hlanded)
    · intro hnot op hreserved
      cases op with
      | debit => exact hnot ⟨e, .debit, rfl, hdebit.mp hreserved⟩
      | credit => exact hcredit hreserved
  | creditFailed e =>
    obtain ⟨hdebit, -⟩ := hlegs .debit
    obtain ⟨hcredit, -⟩ := hlegs .credit
    constructor
    · rintro hall ⟨e', op, herr, hlanded⟩
      obtain rfl := prepareFailed_inj herr
      exact hall _ (hcredit.mpr hlanded)
    · intro hnot op hreserved
      cases op with
      | debit => exact hnone _ _ (hdebit hreserved)
      | credit => exact hnot ⟨e, .credit, rfl, hcredit.mp hreserved⟩

theorem not_held_of_entries {banks : Banks} (h : ∀ e ∈ banks.entries, e.2.prepared = ∅)
    (name key : String) : banks.held name key = none := by
  unfold Banks.held
  cases hp : banks.lookup name with
  | none => rfl
  | some p =>
    have hnone : p.prepared = ∅ := h _ (Finmap.lookup_eq_some_iff.mp hp)
    simp [hnone]

/-- The receiver's bank does not get the prepare, and the debit is released. -/
def lostPrepare : List Network.Action :=
  [.start payment, .execute 0, .answer 0, .lose 0, .fail 0 ⟨.deadlineExceeded, ""⟩, .execute 0,
    .answer 0]

theorem released_lost : ∃ net, Run Network.step (phaseOne "1") (.init twoBanks) lostPrepare net ∧
    ∀ name op, net.banks.held name (payment.key op) = none := by
  obtain ⟨net, hrun, hnet⟩ := Run.exists_of_exec_map Network.step (phaseOne "1") (.init twoBanks)
    lostPrepare (fun net => (net.calls, net.flights, net.history.map (·.command)))
    ([⟨payment, .returned (some (prepareFailed ⟨.deadlineExceeded, ""⟩ .credit)), 4, none⟩], [],
      [payment.command .abort .debit, payment.command .prepare .debit]) (by decide +kernel)
  obtain ⟨hcalls, hnet⟩ := Prod.mk.inj hnet
  obtain ⟨hflights, hhistory⟩ := Prod.mk.inj hnet
  have hempty : ∀ e ∈ twoBanks.entries, e.2.prepared = ∅ := by decide +kernel
  have hc : net.calls[0]? = some
      ⟨payment, .returned (some (prepareFailed ⟨.deadlineExceeded, ""⟩ .credit)), 4, none⟩ := by
    rw [hcalls]
    rfl
  refine ⟨net, hrun, (released_iff (sound_of_entries hempty)
    (fun name _ => not_held_of_entries hempty name _) hrun hc rfl rfl (by simp [hflights])).mpr ?_⟩
  rintro ⟨e, op, herr, event, hevent, -, hcommand, -⟩
  obtain rfl := prepareFailed_inj herr
  have hmem : payment.command .prepare .credit ∈ net.history.map (·.command) :=
    hcommand ▸ List.mem_map_of_mem hevent
  rw [hhistory] at hmem
  exact absurd hmem (by decide)

/-- The answer to a prepare is lost: to that of the debit, and to that of the credit. -/
def lostVotes : Operation → List Network.Action
  | .debit => [.start payment, .execute 0, .fail 0 ⟨.deadlineExceeded, ""⟩]
  | .credit => [.start payment, .execute 0, .answer 0, .execute 0,
      .fail 0 ⟨.deadlineExceeded, ""⟩, .execute 0, .answer 0]

theorem held_of_lostVotes (op : Operation) :
    ∃ net, Run Network.step (phaseOne "1") (.init twoBanks) (lostVotes op) net ∧
      net.calls.map Call.stage =
        [.returned (some (prepareFailed ⟨.deadlineExceeded, ""⟩ op))] ∧ net.flights = [] ∧
      net.banks.held (payment.bank op) (payment.key op) ≠ none := by
  obtain ⟨net, hrun, hend⟩ := Run.exists_of_exec_map Network.step (phaseOne "1") (.init twoBanks)
    (lostVotes op) (fun net => decide (net.calls.map Call.stage =
        [.returned (some (prepareFailed ⟨.deadlineExceeded, ""⟩ op))] ∧ net.flights = [] ∧
      net.banks.held (payment.bank op) (payment.key op) ≠ none)) true
    (by cases op <;> decide +kernel)
  exact ⟨net, hrun, of_decide_eq_true hend⟩

/-- **A reservation is left behind** when the answer to a prepare is lost, be it that of the debit
or that of the credit. The call has returned, and nothing is in flight. -/
theorem left_behind :
    (∃ net, Run Network.step (phaseOne "1") (.init twoBanks) (lostVotes .debit) net ∧
      net.calls.map Call.stage =
        [.returned (some (prepareFailed ⟨.deadlineExceeded, ""⟩ .debit))] ∧ net.flights = [] ∧
      net.banks.held (payment.bank .debit) (payment.key .debit) ≠ none) ∧
    ∃ net, Run Network.step (phaseOne "1") (.init twoBanks) (lostVotes .credit) net ∧
      net.calls.map Call.stage =
        [.returned (some (prepareFailed ⟨.deadlineExceeded, ""⟩ .credit))] ∧ net.flights = [] ∧
      net.banks.held (payment.bank .credit) (payment.key .credit) ≠ none :=
  ⟨held_of_lostVotes .debit, held_of_lostVotes .credit⟩

end PaxosPayments.Gateway
