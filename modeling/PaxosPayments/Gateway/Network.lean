import PaxosPayments.Foundations.Runs
import PaxosPayments.Foundations.Tables
import PaxosPayments.Gateway.Coordinator
import Mathlib.Tactic.Ring

/-!
# Calls over an unreliable network

Any number of calls of `coordinator.transfer`, sequential or concurrent, whose requests travel to
the banks and back. A request in flight is executed once, at any later time, or lost. The call goes
on with the answer, or with an error at any time, whether or not its request has been or will be
executed. The banks apply one command at a time.

The history has every command that a bank has applied, with its result. It accounts for the balances
(`balance_history`). `applications` counts the commands of a key that changed a balance: a key is in
the ledger when there is one, and there is never a second (`applications_eq`).
-/

namespace PaxosPayments.Gateway

open Bank
open Quoted (quote)

/-- A request on its way to a bank. -/
structure Flight where
  /-- The call that has sent it. -/
  call : ℕ
  /-- The turn of the call to which it belongs. -/
  turn : ℕ
  bank : String
  command : Command
  deriving DecidableEq

/-- A call of `coordinator.transfer`. -/
structure Call where
  req : TransferRequest
  stage : Stage
  /-- How many stages it has entered. -/
  turn : ℕ
  /-- The answer to the request of the stage, when it has arrived. -/
  answer : Option (Option Status)
  deriving DecidableEq

/-- A command that a bank has applied. -/
structure Event where
  bank : String
  command : Command
  result : ApplyResult
  deriving DecidableEq

/-- What a command has added to an account at a bank. -/
def Event.adds (e : Event) (name accountID : String) : ℚ :=
  if e.bank = name ∧ e.command.accountID = accountID ∧ e.command.moves e.result
  then e.command.delta else 0

structure Network where
  banks : Banks
  calls : List Call
  flights : List Flight
  /-- The newest event comes first. -/
  history : List Event
  deriving DecidableEq

namespace Network

def init (banks : Banks) : Network := ⟨banks, [], [], []⟩

/-- Call `j`, so far `c`, enters a stage and sends the request of the stage. -/
def enter (net : Network) (j : ℕ) (c : Call) (stage : Stage) : Network :=
  { net with
    calls := net.calls.set j ⟨c.req, stage, c.turn + 1, none⟩
    flights := net.flights ++ (stage.request.map fun (kind, op) =>
      ⟨j, c.turn + 1, c.req.bank op, c.req.command kind op⟩).toList }

/-- How a call begins: it resolves both banks. -/
def entry (banks : Banks) (req : TransferRequest) : Stage :=
  if banks.lookup req.fromBank = none then
    .returned (some ⟨.notFound,
      "sender bank " ++ quote req.fromBank ++ " is not registered with this gateway"⟩)
  else if banks.lookup req.toBank = none then
    .returned (some ⟨.notFound,
      "receiver bank " ++ quote req.toBank ++ " is not registered with this gateway"⟩)
  else .prepareDebit

/-- A call before its first stage. -/
def newCall (req : TransferRequest) : Call := ⟨req, .prepareDebit, 0, none⟩

/-- A call begins. -/
def start (net : Network) (req : TransferRequest) : Network :=
  enter { net with calls := net.calls ++ [newCall req] } net.calls.length (newCall req)
    (entry net.banks req)

inductive Action
  | start (req : TransferRequest)
  /-- The request in flight at that position is executed. -/
  | execute (i : ℕ)
  /-- The request in flight at that position is lost. -/
  | lose (i : ℕ)
  /-- The call reads the answer to its request. -/
  | answer (j : ℕ)
  /-- The request of the call ends with an error of the transport. -/
  | fail (j : ℕ) (e : Status)

/-- The answer reaches the call, if it waits for it. -/
def receive (f : Flight) (err : Option Status) (c : Call) : Call :=
  if c.turn = f.turn then { c with answer := some err } else c

def step (net : Network) : Action → Option Network
  | .start req => some (net.start req)
  | .execute i =>
    match net.flights[i]? with
    | none => none
    | some f =>
      let (banks, result) := net.banks.execute f.bank f.command
      some ⟨banks, net.calls.modify f.call (receive f result.err), net.flights.eraseIdx i,
        ⟨f.bank, f.command, result⟩ :: net.history⟩
  | .lose i =>
    if i < net.flights.length then some { net with flights := net.flights.eraseIdx i } else none
  | .answer j =>
    match net.calls[j]? with
    | none => none
    | some c =>
      match c.stage.request, c.answer with
      | some _, some err => some (net.enter j c (c.stage.next c.req err))
      | _, _ => none
  | .fail j e =>
    match net.calls[j]? with
    | none => none
    | some c =>
      if c.stage.request = none ∨ e.code = .ok then none
      else some (net.enter j c (c.stage.next c.req (some e)))

/-- What an action does. -/
inductive Outcome (net : Network) : Action → Network → Prop
  | start (req : TransferRequest) : Outcome net (.start req) (net.start req)
  | execute (i : ℕ) (f : Flight) (hf : net.flights[i]? = some f) :
    Outcome net (.execute i)
      ⟨(net.banks.execute f.bank f.command).1,
        net.calls.modify f.call (receive f (net.banks.execute f.bank f.command).2.err),
        net.flights.eraseIdx i,
        ⟨f.bank, f.command, (net.banks.execute f.bank f.command).2⟩ :: net.history⟩
  | lose (i : ℕ) : Outcome net (.lose i) { net with flights := net.flights.eraseIdx i }
  | answer (j : ℕ) (c : Call) (err : Option Status) (hc : net.calls[j]? = some c)
      (hreq : c.stage.request ≠ none) (herr : c.answer = some err) :
    Outcome net (.answer j) (net.enter j c (c.stage.next c.req err))
  | fail (j : ℕ) (c : Call) (e : Status) (hc : net.calls[j]? = some c)
      (hreq : c.stage.request ≠ none) :
    Outcome net (.fail j e) (net.enter j c (c.stage.next c.req (some e)))

theorem Outcome.of_step {net net' : Network} {a : Action} (h : net.step a = some net') :
    Outcome net a net' := by
  cases a with
  | start req =>
    obtain rfl := Option.some.inj h
    exact .start req
  | execute i =>
    simp only [step] at h
    cases hf : net.flights[i]? with
    | none => simp [hf] at h
    | some f =>
      simp only [hf] at h
      obtain rfl := Option.some.inj h
      exact .execute i f hf
  | lose i =>
    simp only [step] at h
    split_ifs at h
    obtain rfl := Option.some.inj h
    exact .lose i
  | answer j =>
    simp only [step] at h
    cases hc : net.calls[j]? with
    | none => simp [hc] at h
    | some c =>
      simp only [hc] at h
      split at h
      · rename_i hreq herr
        obtain rfl := Option.some.inj h
        exact .answer j c _ hc (by simp [hreq]) herr
      · cases h
  | fail j e =>
    simp only [step] at h
    cases hc : net.calls[j]? with
    | none => simp [hc] at h
    | some c =>
      simp only [hc] at h
      split_ifs at h with hcond
      obtain rfl := Option.some.inj h
      exact .fail j c e hc (fun hreq => hcond (Or.inl hreq))

/-! ## The calls and requests after a step -/

section Calls

variable {net net' : Network} {a : Action} {c d : Call} {f : Flight} {i j : ℕ} {stage : Stage}
  {req : TransferRequest} {err : Option Status}

theorem getElem?_enter (hj : j < net.calls.length) :
    (net.enter j c stage).calls[i]? =
      if i = j then some ⟨c.req, stage, c.turn + 1, none⟩ else net.calls[i]? := by
  simp only [enter, List.getElem?_set, hj, if_true, eq_comm]

/-- A call is as before, or it is the one that has entered the stage. -/
theorem call_of_enter (hd : (net.enter j c stage).calls[i]? = some d) :
    net.calls[i]? = some d ∨ i = j ∧ d = ⟨c.req, stage, c.turn + 1, none⟩ := by
  simp only [enter, List.getElem?_set] at hd
  split_ifs at hd with hij
  · exact Or.inr ⟨hij.symm, (Option.some.inj hd).symm⟩
  · exact Or.inl hd

/-- A request was in flight before, or it is the one of the stage. -/
theorem flight_of_enter (hf : f ∈ (net.enter j c stage).flights) :
    f ∈ net.flights ∨ ∃ kind op, stage.request = some (kind, op) ∧
      f = ⟨j, c.turn + 1, c.req.bank op, c.req.command kind op⟩ := by
  rcases List.mem_append.mp hf with hf | hf
  · exact Or.inl hf
  · obtain ⟨⟨kind, op⟩, hreq, rfl⟩ := Option.map_eq_some_iff.mp (Option.mem_toList.mp hf)
    exact Or.inr ⟨kind, op, hreq, rfl⟩

/-- An answer changes one call at most, and of that only the answer. -/
theorem call_of_receive (hd : (net.calls.modify f.call (receive f err))[i]? = some d) :
    ∃ d', net.calls[i]? = some d' ∧
      (d = d' ∨ i = f.call ∧ d'.turn = f.turn ∧ d = { d' with answer := some err }) := by
  rw [List.getElem?_modify] at hd
  obtain ⟨d', hd', rfl⟩ := Option.map_eq_some_iff.mp hd
  refine ⟨d', hd', ?_⟩
  unfold receive
  split_ifs with hi hturn
  · exact Or.inr ⟨hi.symm, hturn, rfl⟩
  · exact Or.inl rfl
  · exact Or.inl rfl

theorem requests_enter (hc : net.calls[j]? = some c) :
    (net.enter j c stage).calls.map (·.req) = net.calls.map (·.req) :=
  Table.map_set_eq hc rfl

theorem requests_receive (f : Flight) (err : Option Status) (calls : List Call) :
    (calls.modify f.call (receive f err)).map (·.req) = calls.map (·.req) := by
  refine Table.map_modify_eq (fun d => ?_) _ _
  unfold receive
  split_ifs <;> rfl

/-- **The calls keep their requests**: an action adds one or none. -/
theorem Outcome.requests (h : Outcome net a net') :
    net'.calls.map (·.req) = net.calls.map (·.req) ∨
      ∃ req, a = .start req ∧ net'.calls.map (·.req) = net.calls.map (·.req) ++ [req] := by
  cases h with
  | start req =>
    refine Or.inr ⟨req, rfl, (requests_enter (by simp)).trans ?_⟩
    rw [List.map_append]
    rfl
  | execute i f hf => exact Or.inl (requests_receive f _ _)
  | lose i => exact Or.inl rfl
  | answer j c err hc hreq herr => exact Or.inl (requests_enter hc)
  | fail j c e hc hreq => exact Or.inl (requests_enter hc)

theorem call_of_requests {calls calls' : List Call}
    (h : calls'.map (·.req) = calls.map (·.req)) (hd : calls'[i]? = some d) :
    ∃ d', calls[i]? = some d' ∧ d'.req = d.req := by
  have hi : (calls'.map (·.req))[i]? = (calls.map (·.req))[i]? := by rw [h]
  rw [List.getElem?_map, List.getElem?_map, hd] at hi
  exact Option.map_eq_some_iff.mp hi.symm

end Calls

/-! ## The history accounts for ledgers and balances -/

/-- The commands of a key that have changed a balance at a bank. -/
def applications (net : Network) (name key : String) : ℕ :=
  net.history.countP fun e => e.bank = name && e.command.key = key && e.command.moves e.result

/-- What the commands have added to an account at a bank. -/
def added (net : Network) (name accountID : String) : ℚ :=
  (net.history.map (·.adds name accountID)).sum

/-- An action either leaves banks and history alone or executes one command. -/
theorem Outcome.banks {net net' : Network} {a : Action} (h : Outcome net a net') :
    net'.banks = net.banks ∧ net'.history = net.history ∨
      ∃ f ∈ net.flights, net'.banks = (net.banks.execute f.bank f.command).1 ∧
        net'.history =
          ⟨f.bank, f.command, (net.banks.execute f.bank f.command).2⟩ :: net.history := by
  cases h with
  | start | lose | answer | fail => exact Or.inl ⟨rfl, rfl⟩
  | execute i f hf => exact Or.inr ⟨f, List.mem_of_getElem? hf, rfl, rfl⟩

/-- A key that was not settled at first has been applied once if it is settled, and not at all if it
is not. -/
theorem applications_step {net net' : Network} {a : Action} {name key : String}
    (hs : net.step a = some net')
    (h : net.applications name key = if net.banks.settled name key then 1 else 0) :
    net'.applications name key = if net'.banks.settled name key then 1 else 0 := by
  rcases (Outcome.of_step hs).banks with ⟨hbanks, hhist⟩ | ⟨f, -, hbanks, hhist⟩
  · rw [applications, hhist, hbanks]
    exact h
  · rw [applications, hhist, List.countP_cons, ← applications, h, hbanks]
    by_cases hnew : name = f.bank ∧ key = f.command.key ∧
        f.command.moves (net.banks.execute f.bank f.command).2 = true
    · have hold := Banks.not_settled_of_moves hnew.2.2
      rw [if_pos (Banks.settled_execute.mpr (Or.inr hnew))]
      obtain ⟨rfl, rfl, hmoves⟩ := hnew
      simp [hold, hmoves]
    · have hsettled : (net.banks.execute f.bank f.command).1.settled name key =
          net.banks.settled name key :=
        Bool.eq_iff_iff.mpr (Banks.settled_execute.trans (or_iff_left hnew))
      rw [hsettled]
      refine add_eq_left.mpr (if_neg fun hcond => hnew ?_)
      simp only [Bool.and_eq_true, decide_eq_true_eq] at hcond
      exact ⟨hcond.1.1.symm, hcond.1.2.symm, hcond.2⟩

variable {banks : Banks} {net : Network} {ok : Network → Action → Bool} {acts : List Action}

/-- **No key is applied twice**, and the ledger has those that are applied. -/
theorem applications_eq {name key : String} (hrun : Run step ok (init banks) acts net)
    (hfresh : banks.settled name key = false) :
    net.applications name key = if net.banks.settled name key then 1 else 0 := by
  refine hrun.invariant
    (I := fun net => net.applications name key = if net.banks.settled name key then 1 else 0)
    (fun _ _ _ h _ hs => applications_step hs h) ?_
  simp [init, applications, hfresh]

/-- **The history accounts for every balance.** -/
theorem balance_history (hrun : Run step ok (init banks) acts net) (name accountID : String) :
    net.banks.balance name accountID =
      (banks.balance name accountID).map (· + net.added name accountID) := by
  refine hrun.invariant (I := fun net => net.banks.balance name accountID =
    (banks.balance name accountID).map (· + net.added name accountID))
    (fun net a net' h _ hs => ?_) (by simp [init, added])
  rcases (Outcome.of_step hs).banks with ⟨hbanks, hhist⟩ | ⟨f, -, hbanks, hhist⟩
  · rw [added, hhist, hbanks]
    exact h
  · have hadded : net'.added name accountID =
        Event.adds ⟨f.bank, f.command, (net.banks.execute f.bank f.command).2⟩ name accountID +
        net.added name accountID := by
      rw [added, hhist, List.map_cons, List.sum_cons, ← added]
    rw [hbanks, Banks.balance_execute, h, Option.map_map, hadded, Event.adds]
    congr 1
    funext b
    rw [Function.comp_apply]
    ring

/-! ## Calls whose requests are answered at once -/

/-- A single call that waits for the request of its stage. -/
def waiting (banks : Banks) (req : TransferRequest) (stage : Stage) (turn : ℕ)
    (history : List Event) : Network :=
  ⟨banks, [⟨req, stage, turn, none⟩],
    (stage.request.map fun (kind, op) => ⟨0, turn, req.bank op, req.command kind op⟩).toList,
    history⟩

/-- When every request is executed and answered at once, the call returns `err` with the banks
`banks'`. -/
def Returns (banks : Banks) (req : TransferRequest) (stage : Stage) (banks' : Banks)
    (err : Option Status) : Prop :=
  ∀ turn history, ∃ acts turn' history', Run step always (waiting banks req stage turn history) acts
    (waiting banks' req (.returned err) turn' history')

variable {req : TransferRequest} {stage : Stage} {kind : CmdKind} {op : Operation}
  {banks' : Banks} {err : Option Status}

theorem Returns.returned : Returns banks req (.returned err) banks err :=
  fun turn history => ⟨[], turn, history, .nil _⟩

/-- One request. -/
theorem Returns.of_call (stage : Stage) (hreq : stage.request = some (kind, op))
    (h : Returns (call banks req kind op).1 req (stage.next req (call banks req kind op).2) banks'
      err) : Returns banks req stage banks' err := by
  intro turn history
  let event : Event :=
    ⟨req.bank op, req.command kind op, (banks.execute (req.bank op) (req.command kind op)).2⟩
  let answered : Network := ⟨(call banks req kind op).1,
    [⟨req, stage, turn, some (call banks req kind op).2⟩], [], event :: history⟩
  have hexecute : (waiting banks req stage turn history).step (.execute 0) = some answered := by
    simp [step, waiting, hreq, receive, call, answered, event]
  have hanswer : answered.step (.answer 0) = some (waiting (call banks req kind op).1 req
      (stage.next req (call banks req kind op).2) (turn + 1) (event :: history)) := by
    simp [step, waiting, hreq, enter, answered]
  obtain ⟨acts, turn', history', hrun⟩ := h (turn + 1) (event :: history)
  exact ⟨.execute 0 :: .answer 0 :: acts, turn', history',
    .cons rfl hexecute (.cons rfl hanswer hrun)⟩

/-- The attempts at a commit: `commit` and the stages `st` go through the same ones. -/
theorem Returns.of_commit (st : ℕ → Stage) {done : Stage} {failed : Status → Stage}
    (hreq : ∀ n, (st n).request = some (.commit, op)) (hdone : ∀ n, (st n).next req none = done)
    (hfailed : ∀ n e, (st n).next req (some e) =
      if retriable e && n < commitAttempts then st (n + 1) else failed e)
    (attempts : ℕ) {n : ℕ} (hn : n + attempts = commitAttempts) (last : Option Status)
    (h : Returns (commit req op (attempts + 1) last banks).1 req
      ((commit req op (attempts + 1) last banks).2.elim done failed) banks' err) :
    Returns banks req (st n) banks' err := by
  induction attempts generalizing n banks last with
  | zero =>
    refine .of_call (st n) (hreq n) ?_
    rw [commit] at h
    cases hcall : call banks req .commit op with
    | mk banks₁ answer =>
      cases answer with
      | none => simpa [hcall, hdone] using h
      | some e =>
        have hlast : ¬n < commitAttempts := by omega
        rw [hcall] at h
        rw [hfailed]
        cases hr : retriable e <;> simpa [hr, hlast, commit] using h
  | succ attempts ih =>
    refine .of_call (st n) (hreq n) ?_
    rw [commit] at h
    cases hcall : call banks req .commit op with
    | mk banks₁ answer =>
      cases answer with
      | none => simpa [hcall, hdone] using h
      | some e =>
        have hlt : n < commitAttempts := by omega
        rw [hcall] at h
        rw [hfailed]
        cases hr : retriable e with
        | false => simpa [hr] using h
        | true =>
          simp only [hr, hlt, Bool.not_true, Bool.false_eq_true, if_false, decide_true,
            Bool.and_self, if_true] at h ⊢
          exact ih (by omega) (some e) h

theorem transfer_returns (banks : Banks) (req : TransferRequest) :
    Returns banks req (entry banks req) (transfer banks req).1 (transfer banks req).2 := by
  unfold transfer entry
  split_ifs with hfrom hto
  · exact .returned
  · exact .returned
  refine .of_call .prepareDebit rfl ?_
  generalize call banks req .prepare .debit = q₁
  obtain ⟨banks₁, answer₁⟩ := q₁
  cases answer₁ with
  | some e => exact .returned
  | none =>
  refine .of_call .prepareCredit rfl ?_
  simp only
  generalize call banks₁ req .prepare .credit = q₂
  obtain ⟨banks₂, answer₂⟩ := q₂
  cases answer₂ with
  | some e => exact .of_call (.undoDebit _) rfl .returned
  | none =>
  refine .of_commit .commitDebit (fun _ => rfl) (fun _ => rfl) (fun _ _ => rfl) 2 rfl none ?_
  simp only [commitAttempts]
  generalize commit req .debit 3 none banks₂ = q₃
  obtain ⟨banks₃, answer₃⟩ := q₃
  cases answer₃ with
  | some e => exact .of_call (.abortDebit _) rfl (.of_call (.abortCredit _) rfl .returned)
  | none =>
  refine .of_commit .commitCredit (fun _ => rfl) (fun _ => rfl) (fun _ _ => rfl) 2 rfl none ?_
  simp only
  generalize commit req .credit 3 none banks₃ = q₄
  obtain ⟨banks₄, answer₄⟩ := q₄
  cases answer₄ with
  | some e => exact .returned
  | none => exact .returned

/-- **The synchronous call is a run of the network**: when every request is executed and answered at
once, a call of `coordinator.transfer` does what `transfer` says. -/
theorem transfer_run (banks : Banks) (req : TransferRequest) :
    ∃ acts net, Run step always (init banks) (.start req :: acts) net ∧
      net.banks = (transfer banks req).1 ∧
      net.calls.map Call.stage = [.returned (transfer banks req).2] := by
  obtain ⟨acts, turn, history, hrun⟩ := transfer_returns banks req 1 []
  exact ⟨acts, _, .cons rfl rfl hrun, rfl, rfl⟩

end Network

end PaxosPayments.Gateway
