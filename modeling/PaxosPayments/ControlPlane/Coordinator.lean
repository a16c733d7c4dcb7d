import PaxosPayments.Foundations.Runs
import PaxosPayments.Foundations.Tables
import PaxosPayments.ControlPlane.Machine

/-!
# Transfers between shards

`twopc.Coordinator` over the shards of a cluster, and the calls of `Engine` that reach them. `Stage`
cuts `Coordinator.Transfer` at its requests to the two participants: `Stage.request` is the request
that a stage waits for, and `next` where its answer leads. A commit that was not answered is retried
in the background.

A request in flight is executed once, at any later time, or lost. Whoever sent it goes on with the
answer, or with an error at any time, whether or not the request has been or will be executed. Any
number of transfers may be under way. When the gateway is started again, a new coordinator counts
its transactions from the beginning; the shards and the requests in flight stay.

The history has every command that a shard has applied, and the call that has sent it; nothing reads
it. `Outcome` says what an action does.
-/

namespace PaxosPayments.ControlPlane

/-- The two halves of a transfer. -/
inductive Side
  | source
  | target
  deriving DecidableEq

variable {n : ℕ}

/-- A transfer between two shards, and the name of its transaction. -/
structure Transfer (n : ℕ) where
  tx : String
  source : Fin n
  fromKey : String
  target : Fin n
  toKey : String
  amount : BitVec 64
  deriving DecidableEq

namespace Transfer

variable (t : Transfer n)

def shard : Side → Fin n
  | .source => t.source
  | .target => t.target

def key : Side → String
  | .source => t.fromKey
  | .target => t.toKey

def delta : Side → BitVec 64
  | .source => -t.amount
  | .target => t.amount

/-- The command of a request to the participant of one half. -/
def command (op : Op) (side : Side) : Command :=
  match op with
  | .prepare => ⟨.prepare, t.key side, "", t.delta side, t.tx⟩
  | op => ⟨op, "", "", 0, t.tx⟩

@[simp]
theorem command_op (op : Op) (side : Side) : (t.command op side).op = op := by
  cases op <;> rfl

@[simp]
theorem command_tx (op : Op) (side : Side) : (t.command op side).tx = t.tx := by
  cases op <;> rfl

@[simp]
theorem command_prepare_amount (side : Side) : (t.command .prepare side).amount = t.delta side :=
  rfl

end Transfer

/-- The name of the transaction of that number. -/
def txName (number : ℕ) : String := "tx" ++ toString number

theorem txName_inj {i j : ℕ} (h : txName i = txName j) : i = j := by
  have hrepr : Nat.repr i = Nat.repr j := (String.append_right_inj "tx").mp h
  have hdigits : Nat.toDigits 10 i = Nat.toDigits 10 j := by
    rw [← String.toList_ofList (l := Nat.toDigits 10 i),
      ← String.toList_ofList (l := Nat.toDigits 10 j)]
    exact congrArg String.toList hrepr
  rw [← Nat.ofDigitChars_toDigits (b := 10) (n := i) (by decide) le_rfl, hdigits,
    Nat.ofDigitChars_toDigits (by decide) le_rfl]

/-- `participant.Name`. -/
def participantName (s : Fin n) : String := "s" ++ toString s.val

/-- How a transfer ends. -/
inductive Ending
  | committed
  /-- It is committed, and the participants of these halves have not answered. -/
  | inDoubt (undelivered : List Side)
  | refused (refusal : String)
  deriving DecidableEq

/-- Where a call of `Coordinator.Transfer` stands: the request it waits for, or its end. -/
inductive Stage
  | prepare (side : Side)
  | abort (side : Side) (refusal : String)
  | commit (side : Side) (undelivered : List Side)
  | returned (ending : Ending)
  deriving DecidableEq

namespace Stage

def request : Stage → Option (Op × Side)
  | prepare side => some (.prepare, side)
  | abort side _ => some (.abort, side)
  | commit side _ => some (.commit, side)
  | returned _ => none

/-- The stage after the answer to the request; `none` is the answer without an error. -/
def next (t : Transfer n) : Stage → Option String → Stage
  | prepare .source, none => prepare .target
  | prepare .target, none => commit .source []
  | prepare side, some err =>
    abort .source (participantName (t.shard side) ++ " voted NO: " ++ err)
  | abort .source refusal, _ => abort .target refusal
  | abort .target refusal, _ => returned (.refused refusal)
  | commit .source _, none => commit .target []
  | commit .source _, some _ => commit .target [.source]
  | commit .target [], none => returned .committed
  | commit .target undelivered, none => returned (.inDoubt undelivered)
  | commit .target undelivered, some _ => returned (.inDoubt (undelivered ++ [.target]))
  | returned ending, _ => returned ending

/-- The decision is COMMIT. -/
def commits : Stage → Bool
  | commit _ _ | returned .committed | returned (.inDoubt _) => true
  | prepare _ | abort _ _ | returned (.refused _) => false

/-- The decision is ABORT. -/
def aborts : Stage → Bool
  | abort _ _ | returned (.refused _) => true
  | prepare _ | commit _ _ | returned .committed | returned (.inDoubt _) => false

/-- The halves whose commits are retried from now on. -/
def undelivered : Stage → List Side
  | returned (.inDoubt undelivered) => undelivered
  | _ => []

end Stage

/-- What `Coordinator.Transfer` returns. -/
def Transfer.err (t : Transfer n) : Ending → Option String
  | .committed => none
  | .refused refusal => some refusal
  | .inDoubt undelivered =>
    some ("in doubt: " ++ t.tx ++ " committed, but " ++
      ", ".intercalate (undelivered.map fun side => participantName (t.shard side)) ++
      " has not applied it yet (account stays locked until it does)")

/-- A call of `Coordinator.Transfer`. -/
structure Call (n : ℕ) where
  transfer : Transfer n
  stage : Stage
  /-- How many stages it has entered. -/
  turn : ℕ
  /-- The answer to the request of the stage, when it has arrived. -/
  answer : Option (Option String)
  /-- The coordinator that runs it. -/
  incarnation : ℕ
  deriving DecidableEq

/-- Where a background retry is. -/
inductive RetryStage
  /-- It waits for its ticker. -/
  | pausing
  /-- It has sent a commit. -/
  | calling (answer : Option (Option String))
  | done
  deriving DecidableEq

/-- A goroutine of `retryInBackground`. -/
structure Retry where
  call : ℕ
  side : Side
  stage : RetryStage
  /-- How many commits it has sent. -/
  turn : ℕ
  incarnation : ℕ
  deriving DecidableEq

/-- Where the answer to a request goes. -/
inductive Reply
  | client
  | call (turn : ℕ)
  | retry (i turn : ℕ)
  deriving DecidableEq

/-- A request on its way to a shard. -/
structure Flight (n : ℕ) where
  /-- The call for which it is sent; `none` is a request outside two-phase commit. -/
  call : Option ℕ
  reply : Reply
  shard : Fin n
  command : Command
  deriving DecidableEq

/-- A command that a shard has applied. -/
structure Event (n : ℕ) where
  call : Option ℕ
  shard : Fin n
  command : Command
  before : Machine
  after : Machine

structure Network (n : ℕ) where
  shards : Fin n → Machine
  /-- The number of the last transaction. -/
  seq : UInt64
  closed : Bool
  /-- How many coordinators there have been before this one. -/
  incarnation : ℕ
  calls : List (Call n)
  retries : List Retry
  flights : List (Flight n)
  /-- The newest event comes first. -/
  history : List (Event n)

namespace Network

/-- A cluster before its first transaction. -/
def init (maxKeys : ℕ) (balances : Fin n → Finmap fun _ : String => BitVec 64) : Network n :=
  ⟨fun s => .new maxKeys (balances s), 0, false, 0, [], [], [], []⟩

/-- The name of the next transaction. -/
def nextTx (net : Network n) : String := txName (net.seq + 1).toNat

def send (net : Network n) (f : Flight n) : Network n := { net with flights := net.flights ++ [f] }

/-- The request of the stage of a call. -/
def requestOf (j : ℕ) (c : Call n) : Option (Flight n) :=
  c.stage.request.map fun (op, side) =>
    ⟨some j, .call c.turn, c.transfer.shard side, c.transfer.command op side⟩

/-- Call `j`, so far `c`, enters a stage. -/
def enter (net : Network n) (j : ℕ) (c : Call n) (stage : Stage) : Network n :=
  let c : Call n := { c with stage := stage, turn := c.turn + 1, answer := none }
  { net with
    calls := net.calls.set j c
    flights := net.flights ++ (requestOf j c).toList
    retries := net.retries ++
      if net.closed then []
      else stage.undelivered.map fun side => ⟨j, side, .pausing, 0, net.incarnation⟩ }

/-- `Coordinator.Transfer` begins. -/
def begin (net : Network n) (t : Transfer n) : Network n :=
  let c : Call n := ⟨t, .prepare .source, 0, none, net.incarnation⟩
  { net with
    seq := net.seq + 1
    calls := net.calls ++ [c]
    flights := net.flights ++ (requestOf net.calls.length c).toList }

/-- The answer reaches the call, if it waits for it. -/
def receive (turn : ℕ) (err : Option String) (c : Call n) : Call n :=
  if c.turn = turn then { c with answer := some err } else c

/-- The answer reaches the retry, if it waits for it. -/
def receiveRetry (turn : ℕ) (err : Option String) (r : Retry) : Retry :=
  match r.stage with
  | .calling _ => if r.turn = turn then { r with stage := .calling (some err) } else r
  | .pausing | .done => r

/-- The request is executed. -/
def execute (net : Network n) (f : Flight n) : Network n :=
  let m := net.shards f.shard
  let (m', result) := m.applyLocked f.command
  { net with
    shards := Function.update net.shards f.shard m'
    calls :=
      match f.call, f.reply with
      | some j, .call turn => net.calls.modify j (receive turn result.err)
      | _, _ => net.calls
    retries :=
      match f.reply with
      | .retry i turn => net.retries.modify i (receiveRetry turn result.err)
      | _ => net.retries
    history := ⟨f.call, f.shard, f.command, m, m'⟩ :: net.history }

def dropFlight (net : Network n) (i : ℕ) : Network n :=
  { net with flights := net.flights.eraseIdx i }

def setRetry (net : Network n) (i : ℕ) (r : Retry) : Network n :=
  { net with retries := net.retries.set i r }

/-- A retry sends its commit. -/
def tick (net : Network n) (i : ℕ) (r : Retry) (t : Transfer n) : Network n :=
  (net.setRetry i { r with stage := .calling none, turn := r.turn + 1 }).send
    ⟨some r.call, .retry i (r.turn + 1), t.shard r.side, t.command .commit r.side⟩

inductive Action
  | put (key : String) (value : BitVec 64)
  | get (key : String)
  | transfer (fromKey toKey : String) (amount : BitVec 64)
  /-- The request in flight at that position is executed. -/
  | execute (i : ℕ)
  /-- The request in flight at that position is lost. -/
  | lose (i : ℕ)
  /-- The call reads the answer to its request. -/
  | answer (j : ℕ)
  /-- The request of the call ends with an error. -/
  | fail (j : ℕ) (err : String)
  /-- The ticker of the retry fires. -/
  | tick (i : ℕ)
  /-- The retry reads the answer to its commit. -/
  | answerRetry (i : ℕ)
  /-- The commit of the retry ends with an error. -/
  | failRetry (i : ℕ)
  /-- The retry notices that the coordinator is closed. -/
  | stopRetry (i : ℕ)
  | close
  /-- The gateway stops, and another is started. -/
  | restart
  deriving DecidableEq

variable (shardFor : String → Fin n)

/-- A step of the cluster, when accounts live on shards as `shardFor` says. -/
def step (net : Network n) : Action → Option (Network n)
  | .put key value => some (net.send ⟨none, .client, shardFor key, ⟨.put, key, "", value, ""⟩⟩)
  | .get key => some (net.send ⟨none, .client, shardFor key, ⟨.get, key, "", 0, ""⟩⟩)
  | .transfer fromKey toKey amount =>
    if shardFor fromKey = shardFor toKey then
      some (net.send ⟨none, .client, shardFor fromKey, ⟨.transfer, fromKey, toKey, amount, ""⟩⟩)
    else
      some (net.begin ⟨net.nextTx, shardFor fromKey, fromKey, shardFor toKey, toKey, amount⟩)
  | .execute i => net.flights[i]?.map fun f => (net.dropFlight i).execute f
  | .lose i => net.flights[i]?.map fun _ => net.dropFlight i
  | .answer j =>
    match net.calls[j]? with
    | none => none
    | some c =>
      match c.stage.request, c.answer with
      | some _, some err =>
        if c.incarnation = net.incarnation then some (net.enter j c (c.stage.next c.transfer err))
        else none
      | _, _ => none
  | .fail j err =>
    match net.calls[j]? with
    | none => none
    | some c =>
      if c.stage.request ≠ none ∧ c.incarnation = net.incarnation then
        some (net.enter j c (c.stage.next c.transfer (some err)))
      else none
  | .tick i =>
    match net.retries[i]? with
    | none => none
    | some r =>
      match r.stage, net.calls[r.call]? with
      | .pausing, some c =>
        if r.incarnation = net.incarnation then some (net.tick i r c.transfer) else none
      | _, _ => none
  | .answerRetry i =>
    match net.retries[i]? with
    | none => none
    | some r =>
      match r.stage with
      | .calling (some none) => some (net.setRetry i { r with stage := .done })
      | .calling (some (some _)) => some (net.setRetry i { r with stage := .pausing })
      | _ => none
  | .failRetry i =>
    match net.retries[i]? with
    | none => none
    | some r =>
      match r.stage with
      | .calling _ => some (net.setRetry i { r with stage := .pausing })
      | _ => none
  | .stopRetry i =>
    match net.retries[i]? with
    | none => none
    | some r =>
      if r.stage = .pausing ∧ net.closed then some (net.setRetry i { r with stage := .done })
      else none
  | .close => some { net with closed := true }
  | .restart => some { net with seq := 0, closed := false, incarnation := net.incarnation + 1 }

/-- What an action does. -/
inductive Outcome (net : Network n) : Action → Network n → Prop
  /-- A request outside two-phase commit is sent. -/
  | client {a : Action} (f : Flight n) (hcall : f.call = none) (hop : f.command.op.ofTx = false) :
    Outcome net a (net.send f)
  | begin {fromKey toKey : String} {amount : BitVec 64} (hne : shardFor fromKey ≠ shardFor toKey) :
    Outcome net (.transfer fromKey toKey amount)
      (net.begin ⟨net.nextTx, shardFor fromKey, fromKey, shardFor toKey, toKey, amount⟩)
  | execute {i : ℕ} (f : Flight n) (hf : net.flights[i]? = some f) :
    Outcome net (.execute i) ((net.dropFlight i).execute f)
  | lose {i : ℕ} : Outcome net (.lose i) (net.dropFlight i)
  /-- A call goes on, with the answer or an error. -/
  | enter {a : Action} {j : ℕ} (c : Call n) (err : Option String) (hc : net.calls[j]? = some c)
      (hreq : c.stage.request ≠ none) (herr : err = none → c.answer = some none) :
    Outcome net a (net.enter j c (c.stage.next c.transfer err))
  | tick {i : ℕ} (r : Retry) (c : Call n) (hr : net.retries[i]? = some r)
      (hc : net.calls[r.call]? = some c) : Outcome net (.tick i) (net.tick i r c.transfer)
  | retry {a : Action} {i : ℕ} (r : Retry) (stage : RetryStage) (hr : net.retries[i]? = some r) :
    Outcome net a (net.setRetry i { r with stage := stage })
  | close : Outcome net .close { net with closed := true }
  | restart : Outcome net .restart
      { net with seq := 0, closed := false, incarnation := net.incarnation + 1 }

/-- What an action does, and when. -/
inductive Transition (net : Network n) : Action → Network n → Prop
  | client {a : Action} (f : Flight n) (hcall : f.call = none) (hreply : f.reply = .client)
      (hop : f.command.op.ofTx = false) : Transition net a (net.send f)
  | begin {fromKey toKey : String} {amount : BitVec 64} (hne : shardFor fromKey ≠ shardFor toKey) :
    Transition net (.transfer fromKey toKey amount)
      (net.begin ⟨net.nextTx, shardFor fromKey, fromKey, shardFor toKey, toKey, amount⟩)
  | execute {i : ℕ} (f : Flight n) (hf : net.flights[i]? = some f) :
    Transition net (.execute i) ((net.dropFlight i).execute f)
  | lose {i : ℕ} (f : Flight n) (hf : net.flights[i]? = some f) :
    Transition net (.lose i) (net.dropFlight i)
  | enter {a : Action} {j : ℕ} (c : Call n) (err : Option String) (hc : net.calls[j]? = some c)
      (hreq : c.stage.request ≠ none) (herr : err = none → c.answer = some none)
      (hincarnation : c.incarnation = net.incarnation) :
    Transition net a (net.enter j c (c.stage.next c.transfer err))
  | tick {i : ℕ} (r : Retry) (c : Call n) (hr : net.retries[i]? = some r)
      (hc : net.calls[r.call]? = some c) : Transition net (.tick i) (net.tick i r c.transfer)
  /-- A retry waits for its ticker again. -/
  | pause {a : Action} {i : ℕ} (r : Retry) (hr : net.retries[i]? = some r) :
    Transition net a (net.setRetry i { r with stage := .pausing })
  /-- A retry has its answer, or it notices that the coordinator is closed. -/
  | finish {a : Action} {i : ℕ} (r : Retry) (hr : net.retries[i]? = some r)
      (hend : r.stage = .calling (some none) ∨ net.closed = true) :
    Transition net a (net.setRetry i { r with stage := .done })
  | close : Transition net .close { net with closed := true }
  | restart : Transition net .restart
      { net with seq := 0, closed := false, incarnation := net.incarnation + 1 }

variable {shardFor} {net net' : Network n} {a : Action}

theorem Transition.of_step (h : net.step shardFor a = some net') :
    Transition shardFor net a net' := by
  unfold step at h
  cases a with
  | put | get =>
    obtain rfl := Option.some.inj h
    exact .client _ rfl rfl rfl
  | transfer fromKey toKey amount =>
    dsimp only at h
    split_ifs at h with hshard <;> obtain rfl := Option.some.inj h
    · exact .client _ rfl rfl rfl
    · exact .begin hshard
  | execute i =>
    obtain ⟨f, hf, rfl⟩ := Option.map_eq_some_iff.mp h
    exact .execute f hf
  | lose i =>
    obtain ⟨f, hf, rfl⟩ := Option.map_eq_some_iff.mp h
    exact .lose f hf
  | answer j =>
    dsimp only at h
    split at h
    · cases h
    · rename_i c hc
      split at h
      · rename_i err hreq herr
        split_ifs at h with hincarnation
        obtain rfl := Option.some.inj h
        exact .enter c err hc (by simp [hreq]) (fun hnone => hnone ▸ herr) hincarnation
      · cases h
  | fail j err =>
    dsimp only at h
    split at h
    · cases h
    · rename_i c hc
      split_ifs at h with hreq
      obtain rfl := Option.some.inj h
      exact .enter c (some err) hc hreq.1 nofun hreq.2
  | tick i =>
    dsimp only at h
    split at h
    · cases h
    · rename_i r hr
      split at h
      · rename_i c hstage hc
        split_ifs at h
        obtain rfl := Option.some.inj h
        exact .tick r c hr hc
      · cases h
  | answerRetry i =>
    dsimp only at h
    split at h
    · cases h
    · rename_i r hr
      split at h
      · rename_i hstage
        obtain rfl := Option.some.inj h
        exact .finish r hr (.inl hstage)
      · obtain rfl := Option.some.inj h
        exact .pause r hr
      · cases h
  | failRetry i =>
    dsimp only at h
    split at h
    · cases h
    · rename_i r hr
      split at h
      · obtain rfl := Option.some.inj h
        exact .pause r hr
      · cases h
  | stopRetry i =>
    dsimp only at h
    split at h
    · cases h
    · rename_i r hr
      split_ifs at h with hclosed
      obtain rfl := Option.some.inj h
      exact .finish r hr (.inr hclosed.2)
  | close =>
    obtain rfl := Option.some.inj h
    exact .close
  | restart =>
    obtain rfl := Option.some.inj h
    exact .restart

theorem Transition.outcome (h : Transition shardFor net a net') : Outcome shardFor net a net' := by
  cases h with
  | client f hcall _ hop => exact .client f hcall hop
  | begin hne => exact .begin hne
  | execute f hf => exact .execute f hf
  | lose => exact .lose
  | enter c err hc hreq herr => exact .enter c err hc hreq herr
  | tick r c hr hc => exact .tick r c hr hc
  | pause r hr => exact .retry r .pausing hr
  | finish r hr => exact .retry r .done hr
  | close => exact .close
  | restart => exact .restart

theorem Outcome.of_step (h : net.step shardFor a = some net') : Outcome shardFor net a net' :=
  (Transition.of_step h).outcome

end Network

/-! ## Stages and calls -/

namespace Stage

variable {stage : Stage}

theorem commits_next (t : Transfer n) (h : stage.commits = true) (err : Option String) :
    (stage.next t err).commits = true := by
  unfold next
  split <;> simp_all [commits]

theorem aborts_next (t : Transfer n) (h : stage.aborts = true) (err : Option String) :
    (stage.next t err).aborts = true := by
  unfold next
  split <;> simp_all [aborts]

theorem not_aborts_of_commits (h : stage.commits = true) : stage.aborts = false := by
  unfold commits at h
  split at h <;> simp_all [aborts]

theorem commits_of_undelivered {side : Side} (h : side ∈ stage.undelivered) :
    stage.commits = true := by
  unfold undelivered at h
  split at h
  · rfl
  · cases h

/-- A stage sends a commit when the decision is COMMIT, and an abort when it is ABORT. -/
theorem commits_or_aborts_of_request {op : Op} {side : Side} (h : stage.request = some (op, side)) :
    op = .prepare ∧ stage = .prepare side ∨ op = .commit ∧ stage.commits = true ∨
      op = .abort ∧ stage.aborts = true := by
  cases stage <;> simp_all [request, commits, aborts]

end Stage

/-- A call that has gone on, or has got an answer. -/
structure Call.Advances (c c' : Call n) : Prop where
  transfer : c'.transfer = c.transfer
  commits : c.stage.commits = true → c'.stage.commits = true
  aborts : c.stage.aborts = true → c'.stage.aborts = true
  turn : c.turn ≤ c'.turn
  stage : c'.turn = c.turn → c'.stage = c.stage

namespace Call.Advances

theorem refl (c : Call n) : c.Advances c := ⟨rfl, id, id, le_rfl, fun _ => rfl⟩

theorem receive (c : Call n) (turn : ℕ) (err : Option String) :
    c.Advances (Network.receive turn err c) := by
  unfold Network.receive
  split_ifs
  · exact ⟨rfl, id, id, le_rfl, fun _ => rfl⟩
  · exact .refl c

theorem next (c : Call n) (err : Option String) :
    c.Advances { c with
      stage := c.stage.next c.transfer err, turn := c.turn + 1, answer := none } where
  transfer := rfl
  commits h := Stage.commits_next _ h err
  aborts h := Stage.aborts_next _ h err
  turn := Nat.le_succ _
  stage h := absurd h (Nat.succ_ne_self _)

end Call.Advances

/-! ## The calls after an action -/

namespace Network

variable {shardFor : String → Fin n} {net net' : Network n} {a : Action} {j : ℕ} {c c' : Call n}
  {f : Flight n}

/-- The transfers that have begun. -/
def transfers (net : Network n) : List (Transfer n) := net.calls.map (·.transfer)

theorem transfers_getElem? (hc : net.calls[j]? = some c) :
    net.transfers[j]? = some c.transfer := by
  rw [transfers, List.getElem?_map, hc]
  rfl

theorem getElem?_enter (hc : net.calls[j]? = some c) (stage : Stage) (i : ℕ) :
    (net.enter j c stage).calls[i]? =
      if i = j then some { c with stage := stage, turn := c.turn + 1, answer := none }
      else net.calls[i]? := by
  obtain ⟨hj, -⟩ := List.getElem?_eq_some_iff.mp hc
  simp only [enter, List.getElem?_set, hj, if_true, eq_comm]

/-- The calls after an execution: an answer may have come. -/
theorem getElem?_execute (net : Network n) (f : Flight n) (i : ℕ) :
    (net.execute f).calls[i]? = net.calls[i]? ∨
      ∃ turn, f.call = some i ∧ f.reply = .call turn ∧ (net.execute f).calls[i]? =
        net.calls[i]?.map (receive turn ((net.shards f.shard).applyLocked f.command).2.err) := by
  unfold execute
  dsimp only
  split
  · rename_i j turn hcall hreply
    by_cases hi : j = i
    · subst hi
      exact .inr ⟨turn, hcall, hreply, by simp⟩
    · exact .inl (by simp [hi])
  · exact .inl rfl

theorem getElem?_begin (net : Network n) (t : Transfer n) (i : ℕ) :
    (net.begin t).calls[i]? =
      if i = net.calls.length then some ⟨t, .prepare .source, 0, none, net.incarnation⟩
      else net.calls[i]? := by
  rcases Nat.lt_trichotomy i net.calls.length with hi | rfl | hi
  · rw [if_neg (by omega), begin, List.getElem?_append_left hi]
  · rw [if_pos rfl, begin, List.getElem?_concat_length]
  · have hlen : (net.begin t).calls.length = net.calls.length + 1 := by simp [begin]
    rw [if_neg (by omega), List.getElem?_eq_none (by omega), List.getElem?_eq_none (by omega)]

theorem transfers_enter (hc : net.calls[j]? = some c) (stage : Stage) :
    (net.enter j c stage).transfers = net.transfers :=
  Table.map_set_eq hc rfl

theorem transfers_execute (net : Network n) (f : Flight n) :
    (net.execute f).transfers = net.transfers := by
  unfold transfers execute
  dsimp only
  split
  · refine Table.map_modify_eq (fun c => ?_) _ _
    unfold receive
    split_ifs <;> rfl
  · rfl

theorem transfers_begin (net : Network n) (t : Transfer n) :
    (net.begin t).transfers = net.transfers ++ [t] := by
  simp [begin, transfers]

theorem advances_execute (net : Network n) (f : Flight n) (hc : net.calls[j]? = some c) :
    ∃ c', (net.execute f).calls[j]? = some c' ∧ c.Advances c' := by
  rcases getElem?_execute net f j with h | ⟨turn, -, -, h⟩
  · exact ⟨c, h.trans hc, .refl c⟩
  · exact ⟨_, h.trans (congrArg _ hc), .receive c _ _⟩

theorem receiveRetry_call (turn : ℕ) (err : Option String) (r : Retry) :
    (receiveRetry turn err r).call = r.call := by
  unfold receiveRetry
  split
  · split_ifs <;> rfl
  · rfl
  · rfl

theorem retry_of_execute {r : Retry} (hr : r ∈ (net.execute f).retries) :
    ∃ r' ∈ net.retries, r'.call = r.call := by
  unfold execute at hr
  dsimp only at hr
  split at hr
  · rcases Table.mem_modify hr with hr | ⟨r', hr', rfl⟩
    · exact ⟨r, hr, rfl⟩
    · exact ⟨r', List.mem_of_getElem? hr', (receiveRetry_call _ _ r').symm⟩
  · exact ⟨r, hr, rfl⟩

theorem retry_of_setRetry {i : ℕ} {r r' d : Retry} (hr : r ∈ (net.setRetry i r').retries)
    (hd : net.retries[i]? = some d) (hcall : r'.call = d.call) :
    ∃ r'' ∈ net.retries, r''.call = r.call := by
  rcases List.mem_or_eq_of_mem_set hr with hr | rfl
  · exact ⟨r, hr, rfl⟩
  · exact ⟨d, List.mem_of_getElem? hd, hcall.symm⟩

/-- **Calls only go on**: each keeps its transfer and its decision. -/
theorem Outcome.advances (h : Outcome shardFor net a net') (hc : net.calls[j]? = some c) :
    ∃ c', net'.calls[j]? = some c' ∧ c.Advances c' := by
  cases h with
  | client | lose | tick | retry | close | restart => exact ⟨c, hc, .refl c⟩
  | begin =>
    obtain ⟨hj, -⟩ := List.getElem?_eq_some_iff.mp hc
    refine ⟨c, ?_, .refl c⟩
    rw [getElem?_begin, if_neg (by omega), hc]
  | execute f => exact advances_execute (net.dropFlight _) f hc
  | @enter _ i d err hd =>
    by_cases hi : j = i
    · subst hi
      obtain rfl := Option.some.inj (hd.symm.trans hc)
      exact ⟨_, (getElem?_enter hd _ j).trans (if_pos rfl), .next d err⟩
    · exact ⟨c, ((getElem?_enter hd _ j).trans (if_neg hi)).trans hc, .refl c⟩

/-- Shards change when they execute a request, and only then. -/
theorem Outcome.shards (h : Outcome shardFor net a net') :
    net'.shards = net.shards ∧ net'.history = net.history ∨
      ∃ i f, net.flights[i]? = some f ∧ net' = (net.dropFlight i).execute f := by
  cases h with
  | execute f hf => exact .inr ⟨_, f, hf, rfl⟩
  | client | begin | lose | enter | tick | retry | close | restart => exact .inl ⟨rfl, rfl⟩

/-- An action begins one transfer or none, and numbers go on with the transfers. -/
theorem Outcome.transfers (h : Outcome shardFor net a net') (ha : a ≠ .restart) :
    net'.transfers = net.transfers ∧ net'.seq = net.seq ∨
      ∃ fromKey toKey amount, a = .transfer fromKey toKey amount ∧
        shardFor fromKey ≠ shardFor toKey ∧ net'.seq = net.seq + 1 ∧
        net'.transfers = net.transfers ++
          [⟨net.nextTx, shardFor fromKey, fromKey, shardFor toKey, toKey, amount⟩] := by
  cases h with
  | client | lose | tick | retry | close => exact .inl ⟨rfl, rfl⟩
  | begin hne => exact .inr ⟨_, _, _, rfl, hne, rfl, transfers_begin net _⟩
  | execute f => exact .inl ⟨transfers_execute _ f, rfl⟩
  | enter c err hc => exact .inl ⟨transfers_enter hc _, rfl⟩
  | restart => exact absurd rfl ha

/-- A call was there before, or it has just begun. -/
theorem Outcome.origin (h : Outcome shardFor net a net') (hc : net'.calls[j]? = some c') :
    (∃ c, net.calls[j]? = some c ∧ c.Advances c') ∨
      ∃ fromKey toKey amount, a = .transfer fromKey toKey amount ∧
        shardFor fromKey ≠ shardFor toKey ∧ j = net.calls.length ∧
        c' = ⟨⟨net.nextTx, shardFor fromKey, fromKey, shardFor toKey, toKey, amount⟩,
          .prepare .source, 0, none, net.incarnation⟩ := by
  cases hold : net.calls[j]? with
  | some c =>
    obtain ⟨c'', hc'', hadv⟩ := h.advances hold
    obtain rfl := Option.some.inj (hc.symm.trans hc'')
    exact .inl ⟨c, rfl, hadv⟩
  | none =>
    cases h with
    | client | lose | tick | retry | close | restart => exact absurd (hc.symm.trans hold) nofun
    | begin hne =>
      rw [getElem?_begin] at hc
      split_ifs at hc with hj
      · exact .inr ⟨_, _, _, rfl, hne, hj, (Option.some.inj hc).symm⟩
      · exact absurd (hc.symm.trans hold) nofun
    | execute f =>
      rcases getElem?_execute (net.dropFlight _) f j with h | ⟨turn, -, -, h⟩
      · exact absurd ((hc.symm.trans h).trans hold) nofun
      · exact absurd ((hc.symm.trans h).trans (congrArg _ hold)) nofun
    | enter d err hd =>
      rw [getElem?_enter hd] at hc
      split_ifs at hc with hj
      · exact absurd ((hj ▸ hold).symm.trans hd) nofun
      · exact absurd (hc.symm.trans hold) nofun

end Network

end PaxosPayments.ControlPlane
