import PaxosPayments.Gateway.Network

/-!
# Retries of a payment

Any number of calls that carry one request, among calls of other transactions. The debit is applied
at most once and the credit at most once, the credit only after the debit, and when one of the calls
has returned `nil`, each of them once (`retried_once`). That a half is applied means that its amount
is moved: a balance is what it was at first, with what the other transactions have added and the
amount of each half as often as it was applied (`balance_eq`).

What the calls know of the banks carries the proof (`Coherent`). A call that commits the credit has
had its debit committed, and so has every `CommitCredit` that is still in flight (`Call.Backed`,
`Flight.Serves`). Ledgers only grow, so that no abort, no late request and no other call can take
this knowledge away.
-/

namespace PaxosPayments.Gateway

open Bank

/-- The half of the transfer is in the ledger of its bank. -/
def Settled (banks : Banks) (req : TransferRequest) (op : Operation) : Prop :=
  banks.settled (req.bank op) (req.key op) = true

theorem Settled.execute {banks : Banks} {req : TransferRequest} {op : Operation}
    (h : Settled banks req op) (name : String) (c : Command) :
    Settled (banks.execute name c).1 req op :=
  Banks.settled_mono h

/-- What a call has seen of the banks is so. -/
structure Call.Backed (banks : Banks) (c : Call) : Prop where
  commitCredit : ∀ n, c.stage = .commitCredit n → Settled banks c.req .debit
  returned : c.stage = .returned none → Settled banks c.req .debit ∧ Settled banks c.req .credit
  answer : c.answer = some none → ∀ op, c.stage.request = some (.commit, op) →
    Settled banks c.req op

/-- The flight is a request of the call: that of its present stage, or an earlier one. -/
structure Flight.Serves (banks : Banks) (f : Flight) (c : Call) (kind : CmdKind)
    (op : Operation) : Prop where
  turn : f.turn ≤ c.turn
  bank : f.bank = c.req.bank op
  command : f.command = c.req.command kind op
  current : f.turn = c.turn → c.stage.request = some (kind, op)
  credit : kind = .commit → op = .credit → Settled banks c.req .debit

variable {banks : Banks} {c : Call} {f : Flight} {kind : CmdKind} {op : Operation}

theorem Call.Backed.execute (h : c.Backed banks) (name : String) (cmd : Command) :
    c.Backed (banks.execute name cmd).1 :=
  ⟨fun n hn => (h.commitCredit n hn).execute name cmd,
    fun hr => ⟨(h.returned hr).1.execute name cmd, (h.returned hr).2.execute name cmd⟩,
    fun ha op hop => (h.answer ha op hop).execute name cmd⟩

theorem Flight.Serves.execute (h : f.Serves banks c kind op) (name : String) (cmd : Command) :
    f.Serves (banks.execute name cmd).1 c kind op :=
  ⟨h.turn, h.bank, h.command, h.current, fun hk hop => (h.credit hk hop).execute name cmd⟩

/-- A call that goes on knows what it knew, and what the answer says. -/
theorem Call.Backed.next (h : c.Backed banks) {err : Option Status}
    (herr : err = none → c.answer = some none) (turn : ℕ) :
    Call.Backed banks ⟨c.req, c.stage.next c.req err, turn, none⟩ := by
  refine ⟨fun n hn => ?_, fun hr => ?_, nofun⟩
  · rcases Stage.next_eq_commitCredit hn with ⟨hnone, m, hstage⟩ | ⟨m, hstage⟩
    · exact h.answer (herr hnone) .debit (by rw [hstage]; rfl)
    · exact h.commitCredit m hstage
  · rcases Stage.next_eq_returned_none hr with ⟨hnone, m, hstage⟩ | hstage
    · exact ⟨h.commitCredit m hstage, h.answer (herr hnone) .credit (by rw [hstage]; rfl)⟩
    · exact h.returned hstage

/-- Banks, calls and flights fit together. -/
structure Coherent (net : Network) : Prop where
  sound : net.banks.Sound
  calls : ∀ (j : ℕ) (c : Call), net.calls[j]? = some c → c.Backed net.banks
  flights : ∀ f ∈ net.flights, ∃ (c : Call) (kind : CmdKind) (op : Operation),
    net.calls[f.call]? = some c ∧ f.Serves net.banks c kind op

namespace Coherent

variable {net net' : Network} {a : Network.Action} {j : ℕ}

theorem init (h : banks.Sound) : Coherent (Network.init banks) :=
  ⟨h, fun j c hc => by simp [Network.init] at hc, fun f hf => by simp [Network.init] at hf⟩

/-- A call enters a stage for which it knows enough. -/
theorem enter (h : Coherent net) (hc : net.calls[j]? = some c) {stage : Stage}
    (hbacked : Call.Backed net.banks ⟨c.req, stage, c.turn + 1, none⟩) :
    Coherent (net.enter j c stage) := by
  obtain ⟨hj, -⟩ := List.getElem?_eq_some_iff.mp hc
  refine ⟨h.sound, fun i c' hc' => ?_, fun f hf => ?_⟩
  · rcases Network.call_of_enter hc' with hc' | ⟨-, rfl⟩
    · exact h.calls i c' hc'
    · exact hbacked
  · rcases Network.flight_of_enter hf with hf | ⟨kind, op, hreq, rfl⟩
    · obtain ⟨c', kind, op, hc', hserves⟩ := h.flights f hf
      by_cases hfj : f.call = j
      · -- an earlier request of this call
        obtain rfl := Option.some.inj (hc.symm.trans (hfj ▸ hc'))
        refine ⟨⟨c.req, stage, c.turn + 1, none⟩, kind, op, ?_, ?_⟩
        · rw [Network.getElem?_enter hj, if_pos hfj]
        · exact ⟨hserves.turn.trans (Nat.le_succ _), hserves.bank, hserves.command,
            fun heq => absurd (hserves.turn.trans_lt (Nat.lt_succ_self _)) (by simp [heq]),
            hserves.credit⟩
      · refine ⟨c', kind, op, ?_, hserves⟩
        rw [Network.getElem?_enter hj, if_neg hfj, hc']
    · refine ⟨⟨c.req, stage, c.turn + 1, none⟩, kind, op, ?_, le_rfl, rfl, rfl, fun _ => hreq,
        fun hk hop => ?_⟩
      · rw [Network.getElem?_enter hj, if_pos rfl]
      · subst hk
        rcases Stage.request_commit hreq with ⟨hdebit, -⟩ | ⟨-, n, hstage⟩
        · rw [hdebit] at hop
          cases hop
        · exact hbacked.commitCredit n hstage

theorem addCall (h : Coherent net) (req : TransferRequest) :
    Coherent { net with calls := net.calls ++ [Network.newCall req] } := by
  refine ⟨h.sound, fun i c hc => ?_, fun f hf => ?_⟩
  · rcases Table.getElem?_concat_eq_some.mp hc with hc | ⟨-, rfl⟩
    · exact h.calls i c hc
    · exact ⟨nofun, nofun, nofun⟩
  · obtain ⟨c, kind, op, hc, hserves⟩ := h.flights f hf
    exact ⟨c, kind, op, Table.getElem?_concat hc _, hserves⟩

theorem start (h : Coherent net) (req : TransferRequest) : Coherent (net.start req) := by
  refine (h.addCall req).enter (by simp) ?_
  unfold Network.entry
  split_ifs <;> exact ⟨nofun, nofun, nofun⟩

theorem lose (h : Coherent net) (i : ℕ) :
    Coherent { net with flights := net.flights.eraseIdx i } :=
  ⟨h.sound, h.calls, fun f hf => h.flights f (List.mem_of_mem_eraseIdx hf)⟩

/-- The bank of a flight executes it, and its answer reaches the call. -/
theorem execute (h : Coherent net) {i : ℕ} (hf : net.flights[i]? = some f)
    (history : List Event) :
    Coherent ⟨(net.banks.execute f.bank f.command).1,
      net.calls.modify f.call (Network.receive f (net.banks.execute f.bank f.command).2.err),
      net.flights.eraseIdx i, history⟩ := by
  obtain ⟨c, kind, op, hc, hserves⟩ := h.flights f (List.mem_of_getElem? hf)
  refine ⟨Banks.sound_execute h.sound _ _, fun j c' hc' => ?_, fun f' hf' => ?_⟩
  · obtain ⟨c'', hc'', hanswer⟩ := Network.call_of_receive hc'
    have hback := (h.calls j c'' hc'').execute f.bank f.command
    rcases hanswer with rfl | ⟨rfl, hturn, rfl⟩
    · exact hback
    · obtain rfl : c'' = c := Option.some.inj (hc''.symm.trans hc)
      refine ⟨hback.commitCredit, hback.returned, fun herr op' hreq => ?_⟩
      -- the answer belongs to the request of the stage
      have hcur := (hserves.current hturn.symm).symm.trans hreq
      obtain ⟨rfl, rfl⟩ := Prod.mk.inj (Option.some.inj hcur)
      have hkey : f.command.key = c''.req.key op := by
        rw [hserves.command, TransferRequest.command_key]
      have hsettled :
          (net.banks.execute f.bank f.command).1.settled f.bank f.command.key = true :=
        Banks.settled_of_commit h.sound (by simp [hserves.command]) (Option.some.inj herr)
      rw [hkey, hserves.bank] at hsettled
      rw [Settled, hserves.bank]
      exact hsettled
  · obtain ⟨c', kind', op', hc', hserves'⟩ := h.flights f' (List.mem_of_mem_eraseIdx hf')
    have hserves'' := hserves'.execute f.bank f.command
    rw [List.getElem?_modify, hc']
    refine ⟨_, kind', op', rfl, ?_⟩
    simp only
    split_ifs
    · unfold Network.receive
      split_ifs
      · exact ⟨hserves''.turn, hserves''.bank, hserves''.command, hserves''.current,
          hserves''.credit⟩
      · exact hserves''
    · exact hserves''

theorem step (h : Coherent net) (hs : net.step a = some net') : Coherent net' := by
  cases Network.Outcome.of_step hs with
  | start req => exact h.start req
  | execute i f hf => exact h.execute hf _
  | lose i => exact h.lose i
  | answer j c err hc hreq herr =>
    exact h.enter hc ((h.calls j c hc).next (fun hnone => hnone ▸ herr) _)
  | fail j c e hc hreq =>
    exact h.enter hc (@Call.Backed.next net.banks c (h.calls j c hc) (some e) nofun _)

end Coherent

/-! ## Calls with one request -/

/-- A call of the transaction of `req` carries `req`. -/
def carries (req : TransferRequest) (_ : Network) : Network.Action → Bool
  | .start req' => req'.transactionID ≠ req.transactionID || req' = req
  | _ => true

/-- The calls of the transaction carry its request, and the credit comes after the debit. -/
structure Ordered (req : TransferRequest) (net : Network) : Prop where
  coherent : Coherent net
  carried : ∀ c ∈ net.calls, c.req.transactionID = req.transactionID → c.req = req
  order : Settled net.banks req .credit → Settled net.banks req .debit

variable {req : TransferRequest} {net net' : Network} {a : Network.Action}

/-- A call has the request of a call before, or that of the action. -/
theorem req_of_mem_calls (h : Network.Outcome net a net') {d : Call} (hd : d ∈ net'.calls) :
    (∃ d' ∈ net.calls, d'.req = d.req) ∨ a = .start d.req := by
  have hmem : d.req ∈ net'.calls.map (·.req) := List.mem_map_of_mem hd
  rcases h.requests with hreqs | ⟨req, rfl, hreqs⟩
  · rw [hreqs] at hmem
    exact Or.inl (List.mem_map.mp hmem)
  · rw [hreqs, List.mem_append, List.mem_singleton] at hmem
    rcases hmem with hmem | rfl
    · exact Or.inl (List.mem_map.mp hmem)
    · exact Or.inr rfl

theorem Ordered.init (hsound : banks.Sound)
    (hfresh : ∀ op, banks.settled (req.bank op) (req.key op) = false) :
    Ordered req (.init banks) :=
  ⟨.init hsound, by simp [Network.init],
    fun h => absurd h (by simp [Settled, Network.init, hfresh])⟩

theorem Ordered.step (h : Ordered req net) (hok : carries req net a = true)
    (hs : net.step a = some net') : Ordered req net' := by
  have hout := Network.Outcome.of_step hs
  refine ⟨h.coherent.step hs, fun d hd hid => ?_, fun hcredit => ?_⟩
  · rcases req_of_mem_calls hout hd with ⟨d', hd', heq⟩ | rfl
    · rw [← heq] at hid ⊢
      exact h.carried d' hd' hid
    · simpa [carries, hid] using hok
  · rcases hout.banks with ⟨hbanks, -⟩ | ⟨f, hf, hbanks, -⟩
    · rw [hbanks] at hcredit ⊢
      exact h.order hcredit
    · rw [hbanks] at hcredit ⊢
      rcases Banks.settled_execute.mp hcredit with hold | ⟨hbank, hkey, hmoves⟩
      · exact (h.order hold).execute _ _
      · -- the request that settles the credit is a commit of a call that has its debit
        obtain ⟨c, kind, op, hc, hserves⟩ := h.coherent.flights f hf
        have hkey' : req.key .credit = c.req.key op := by
          rw [hkey, hserves.command, TransferRequest.command_key]
        obtain ⟨hid, rfl⟩ := transactionKey_inj hkey'
        have hkind : kind = .commit := by
          rw [hserves.command] at hmoves
          by_contra hne
          simp [Command.moves, hne] at hmoves
        have hsettled := hserves.credit hkind rfl
        rw [h.carried c (List.mem_of_getElem? hc) hid.symm] at hsettled
        exact hsettled.execute _ _

/-! ## Applications -/

/-- The times that one half of a transfer has been applied to a balance. -/
def applied (net : Network) (req : TransferRequest) (op : Operation) : ℕ :=
  net.applications (req.bank op) (req.key op)

section Applied

variable {ok : Network → Network.Action → Bool} {acts : List Network.Action}

theorem applied_of_settled (hrun : Run Network.step ok (.init banks) acts net)
    (hfresh : banks.settled (req.bank op) (req.key op) = false) (h : Settled net.banks req op) :
    applied net req op = 1 := by
  unfold Settled at h
  rw [applied, Network.applications_eq hrun hfresh, if_pos h]

theorem applied_of_not_settled (hrun : Run Network.step ok (.init banks) acts net)
    (hfresh : banks.settled (req.bank op) (req.key op) = false) (h : ¬Settled net.banks req op) :
    applied net req op = 0 := by
  unfold Settled at h
  rw [applied, Network.applications_eq hrun hfresh, if_neg h]

theorem applied_le_one (hrun : Run Network.step ok (.init banks) acts net)
    (hfresh : banks.settled (req.bank op) (req.key op) = false) : applied net req op ≤ 1 := by
  by_cases h : Settled net.banks req op
  · rw [applied_of_settled hrun hfresh h]
  · rw [applied_of_not_settled hrun hfresh h]
    exact Nat.zero_le 1

end Applied

/-! ## Applications and balances -/

/-- The command belongs to another transaction. -/
def Event.foreign (id : String) (e : Event) : Bool :=
  e.command.key ≠ transactionKey id .debit && e.command.key ≠ transactionKey id .credit

/-- What the commands of other transactions have added to an account at a bank. -/
def addedByOthers (net : Network) (id name accountID : String) : ℚ :=
  ((net.history.filter (·.foreign id)).map (·.adds name accountID)).sum

/-- What one half of a transfer has added to an account at a bank: its amount, as often as it was
applied. -/
def movedBy (net : Network) (req : TransferRequest) (op : Operation) (name accountID : String) :
    ℚ :=
  if req.bank op = name ∧ (req.command .commit op).accountID = accountID then
    applied net req op * (req.command .commit op).delta
  else 0

section Balances

variable {ok : Network → Network.Action → Bool} {acts : List Network.Action}

/-- Every command that was applied is a request of a call. -/
theorem call_of_event (hsound : banks.Sound) (hrun : Run Network.step ok (.init banks) acts net) :
    ∀ e ∈ net.history, ∃ c ∈ net.calls, ∃ kind op,
      e.bank = c.req.bank op ∧ e.command = c.req.command kind op := by
  refine (hrun.invariant (I := fun net => Coherent net ∧ ∀ e ∈ net.history, ∃ c ∈ net.calls,
    ∃ kind op, e.bank = c.req.bank op ∧ e.command = c.req.command kind op)
    (fun net a net' h _ hs => ⟨h.1.step hs, fun e he => ?_⟩)
    ⟨.init hsound, by simp [Network.init]⟩).2
  have hout := Network.Outcome.of_step hs
  have hold : ∃ c ∈ net.calls, ∃ kind op,
      e.bank = c.req.bank op ∧ e.command = c.req.command kind op := by
    rcases hout.banks with ⟨-, hhist⟩ | ⟨f, hf, -, hhist⟩
    · exact h.2 e (hhist ▸ he)
    · rw [hhist] at he
      rcases List.mem_cons.mp he with rfl | he
      · obtain ⟨c, kind, op, hc, hserves⟩ := h.1.flights f hf
        exact ⟨c, List.mem_of_getElem? hc, kind, op, hserves.bank, hserves.command⟩
      · exact h.2 e he
  obtain ⟨c, hc, kind, op, hbank, hcommand⟩ := hold
  have hreq : c.req ∈ net'.calls.map (·.req) := by
    have hmem : c.req ∈ net.calls.map (·.req) := List.mem_map_of_mem hc
    rcases hout.requests with hreqs | ⟨req, -, hreqs⟩
    · exact hreqs ▸ hmem
    · exact hreqs ▸ List.mem_append_left _ hmem
  obtain ⟨c', hc', heq⟩ := List.mem_map.mp hreq
  exact ⟨c', hc', kind, op, heq ▸ hbank, heq ▸ hcommand⟩

/-- The commands of one half are its own. -/
def Event.Own (req : TransferRequest) (e : Event) : Prop :=
  ∀ op, e.command.key = req.key op →
    e.bank = req.bank op ∧ ∃ kind, e.command = req.command kind op

theorem Event.adds_own {e : Event} (h : e.Own req) (hkey : e.command.key = req.key op)
    (name accountID : String) :
    e.adds name accountID =
      if req.bank op = name ∧ (req.command .commit op).accountID = accountID then
        if e.command.moves e.result then (req.command .commit op).delta else 0
      else 0 := by
  obtain ⟨hbank, kind, hcommand⟩ := h op hkey
  have haccount : e.command.accountID = (req.command .commit op).accountID := by
    rw [hcommand]
    cases op <;> rfl
  have hdelta : e.command.delta = (req.command .commit op).delta := by
    rw [hcommand]
    cases op <;> rfl
  simp only [Event.adds, hbank, haccount, hdelta, ← ite_and, and_assoc]

/-- A further command counts for the half whose key it has. -/
theorem movedBy_cons {calls : List Call} {flights : List Flight} {history : List Event} {e : Event}
    (h : e.Own req) (name accountID : String) :
    movedBy ⟨banks, calls, flights, e :: history⟩ req op name accountID =
      (if e.command.key = req.key op then e.adds name accountID else 0) +
        movedBy ⟨banks, calls, flights, history⟩ req op name accountID := by
  have hcount : applied ⟨banks, calls, flights, e :: history⟩ req op =
      applied ⟨banks, calls, flights, history⟩ req op +
        if e.command.key = req.key op ∧ e.command.moves e.result then 1 else 0 := by
    rw [applied, Network.applications, List.countP_cons]
    congr 1
    by_cases hkey : e.command.key = req.key op
    · simp [hkey, (h op hkey).1]
    · simp [hkey]
  simp only [movedBy, hcount]
  by_cases hkey : e.command.key = req.key op
  · rw [if_pos hkey, Event.adds_own h hkey]
    by_cases hmoves : e.command.moves e.result = true
    · simp only [hkey, hmoves, and_self, if_true]
      split_ifs
      · push_cast
        ring
      · exact (add_zero 0).symm
    · simp [hmoves]
  · simp [hkey]

/-- A command is of another transaction, or of one half of the transfer. -/
theorem Event.split (e : Event) (req : TransferRequest) (x : ℚ) :
    x = (if e.foreign req.transactionID then x else 0) +
      (if e.command.key = req.key .debit then x else 0) +
      (if e.command.key = req.key .credit then x else 0) := by
  have hforeign : e.foreign req.transactionID = true ↔
      e.command.key ≠ req.key .debit ∧ e.command.key ≠ req.key .credit := by
    simp [Event.foreign, TransferRequest.key]
  by_cases hdebit : e.command.key = req.key .debit
  · have hcredit : e.command.key ≠ req.key .credit :=
      fun h => req.key_debit_ne_credit (hdebit.symm.trans h)
    rw [if_neg fun h => (hforeign.mp h).1 hdebit, if_pos hdebit, if_neg hcredit, zero_add, add_zero]
  · by_cases hcredit : e.command.key = req.key .credit
    · rw [if_neg fun h => (hforeign.mp h).2 hcredit, if_neg hdebit, if_pos hcredit, zero_add,
        zero_add]
    · rw [if_pos (hforeign.mpr ⟨hdebit, hcredit⟩), if_neg hdebit, if_neg hcredit, add_zero,
        add_zero]

/-- A history splits into the commands of other transactions and those of the transfer. -/
theorem added_eq (net : Network) (hown : ∀ e ∈ net.history, e.Own req) (name accountID : String) :
    net.added name accountID = addedByOthers net req.transactionID name accountID +
      movedBy net req .debit name accountID + movedBy net req .credit name accountID := by
  obtain ⟨banks, calls, flights, history⟩ := net
  induction history with
  | nil => simp [Network.added, addedByOthers, movedBy, applied, Network.applications]
  | cons e history ih =>
    obtain ⟨he, hrest⟩ := List.forall_mem_cons.mp hown
    have hothers : addedByOthers ⟨banks, calls, flights, e :: history⟩ req.transactionID name
        accountID = (if e.foreign req.transactionID then e.adds name accountID else 0) +
          addedByOthers ⟨banks, calls, flights, history⟩ req.transactionID name accountID := by
      rw [addedByOthers, addedByOthers, List.filter_cons]
      split_ifs <;> simp
    have hadded : Network.added ⟨banks, calls, flights, e :: history⟩ name accountID =
        e.adds name accountID + Network.added ⟨banks, calls, flights, history⟩ name accountID := by
      rw [Network.added, Network.added, List.map_cons, List.sum_cons]
    rw [hadded, hothers, movedBy_cons he, movedBy_cons he, ih hrest]
    nth_rewrite 1 [e.split req (e.adds name accountID)]
    ring

/-- **What the applications mean for the balances.** -/
theorem balance_eq (hsound : banks.Sound) (hrun : Run Network.step ok (.init banks) acts net)
    (hcarried : ∀ c ∈ net.calls, c.req.transactionID = req.transactionID → c.req = req)
    (name accountID : String) :
    net.banks.balance name accountID = (banks.balance name accountID).map
      (· + (addedByOthers net req.transactionID name accountID +
        movedBy net req .debit name accountID + movedBy net req .credit name accountID)) := by
  have hown : ∀ e ∈ net.history, e.Own req := by
    intro e he op hkey
    obtain ⟨c, hc, kind, op', hbank, hcommand⟩ := call_of_event hsound hrun e he
    rw [hcommand, TransferRequest.command_key] at hkey
    obtain ⟨hid, rfl⟩ := transactionKey_inj hkey
    rw [hcarried c hc hid] at hbank hcommand
    exact ⟨hbank, kind, hcommand⟩
  rw [Network.balance_history hrun, added_eq net hown]

end Balances

/-- **Retries never move money twice**: in every run in which the calls of a transaction carry one
request, its debit is applied at most once, its credit at most once and only if the debit is, and
when one of the calls has returned `nil` both are applied. Every balance is what it was, with what
other transactions have added and the amounts of the halves that are applied. -/
theorem retried_once {acts : List Network.Action} (hsound : banks.Sound)
    (hfresh : ∀ op, banks.settled (req.bank op) (req.key op) = false)
    (hrun : Run Network.step (carries req) (.init banks) acts net) :
    applied net req .debit ≤ 1 ∧ applied net req .credit ≤ 1 ∧
      (0 < applied net req .credit → 0 < applied net req .debit) ∧
      (∀ c ∈ net.calls, c.req.transactionID = req.transactionID → c.stage = .returned none →
        applied net req .debit = 1 ∧ applied net req .credit = 1) ∧
      ∀ name accountID, net.banks.balance name accountID = (banks.balance name accountID).map
        (· + (addedByOthers net req.transactionID name accountID +
          movedBy net req .debit name accountID + movedBy net req .credit name accountID)) := by
  have hordered : Ordered req net :=
    hrun.invariant (fun _ _ _ h hok hs => Ordered.step h hok hs) (.init hsound hfresh)
  refine ⟨applied_le_one hrun (hfresh _), applied_le_one hrun (hfresh _), fun hpos => ?_,
    fun c hc hid hret => ?_, balance_eq hsound hrun hordered.carried⟩
  · have hcredit : Settled net.banks req .credit := by
      by_contra hnot
      rw [applied_of_not_settled hrun (hfresh _) hnot] at hpos
      exact absurd hpos (lt_irrefl 0)
    rw [applied_of_settled hrun (hfresh _) (hordered.order hcredit)]
    exact Nat.one_pos
  · obtain ⟨j, hj⟩ := List.mem_iff_getElem?.mp hc
    have hboth := (hordered.coherent.calls j c hj).returned hret
    rw [hordered.carried c hc hid] at hboth
    exact ⟨applied_of_settled hrun (hfresh _) hboth.1, applied_of_settled hrun (hfresh _) hboth.2⟩

theorem sound_of_entries (h : ∀ e ∈ banks.entries, e.2.prepared = ∅) : banks.Sound := by
  intro name p hp k r hr
  have hnone : p.prepared = ∅ := h _ (Finmap.lookup_eq_some_iff.mp hp)
  rw [hnone, Finmap.lookup_empty] at hr
  cases hr

theorem not_settled_of_entries (h : ∀ e ∈ banks.entries, e.2.ledger.applied = ∅) {key : String}
    (name : String) : banks.settled name key = false := by
  unfold Banks.settled
  cases hp : banks.lookup name with
  | none => rfl
  | some p =>
    have hnone : p.ledger.applied = ∅ := h _ (Finmap.lookup_eq_some_iff.mp hp)
    simp [Ledger.has, hnone]

/-- Two banks with an account each. -/
def twoBanks : Banks :=
  (Finmap.singleton "X" (newParticipant [⟨"alice", "", "", "X", 100⟩] ⟨[], ∅⟩)).insert "Y"
    (newParticipant [⟨"bob", "", "", "Y", 0⟩] ⟨[], ∅⟩)

/-- A transfer from `alice` to `bob`. -/
def payment : TransferRequest := ⟨"1", "X", "alice", "Y", "bob", 10⟩

/-- Two calls at once. The first one misses the answer to its commit of the debit and tries again,
when the second one has committed both halves. -/
def twoAttempts : List Network.Action :=
  [.start payment, .start payment, .execute 0, .answer 0, .execute 0, .answer 1, .execute 0,
    .answer 0, .execute 1, .fail 0 ⟨.deadlineExceeded, ""⟩, .execute 0, .answer 1, .execute 1,
    .answer 1, .execute 1, .answer 1, .execute 0, .answer 0, .execute 0, .answer 0]

theorem retried_once_twice :
    ∃ net, Run Network.step (carries payment) (.init twoBanks) twoAttempts net ∧
      net.calls.map Call.stage = [.returned none, .returned none] ∧
      net.banks.balance "X" "alice" = some 90 ∧ net.banks.balance "Y" "bob" = some 10 ∧
      applied net payment .debit ≤ 1 ∧ applied net payment .credit ≤ 1 ∧
      net.banks.balance "X" "alice" = (twoBanks.balance "X" "alice").map
        (· + (addedByOthers net "1" "X" "alice" + movedBy net payment .debit "X" "alice" +
          movedBy net payment .credit "X" "alice")) := by
  obtain ⟨net, hrun, hend⟩ := Run.exists_of_exec_map Network.step (carries payment)
    (.init twoBanks) twoAttempts
    (fun net => (net.calls.map Call.stage, net.banks.balance "X" "alice",
      net.banks.balance "Y" "bob"))
    ([.returned none, .returned none], some 90, some 10) (by decide +kernel)
  have honce := retried_once (sound_of_entries (by decide +kernel))
    (fun op => by cases op <;> decide +kernel) hrun
  obtain ⟨hcalls, hbalances⟩ := Prod.mk.inj hend
  obtain ⟨hx, hy⟩ := Prod.mk.inj hbalances
  exact ⟨net, hrun, hcalls, hx, hy, honce.1, honce.2.1, honce.2.2.2.2 "X" "alice"⟩

end PaxosPayments.Gateway
