import PaxosPayments.Status
import PaxosPayments.Foundations.Runs
import Mathlib.Algebra.Order.Group.Multiset

/-!
# The offline queue of the client

The client holds transfers that it could not deliver. The menu adds them, and the goroutine `drain`
takes the whole queue, tries each transfer and puts back those that may still succeed. Both rewrite
the file of the queue with `persist`, which encodes the queue under the lock and renames a new file
over the old one outside it: a stage each, between which the other goroutine may do anything. The
process may stop at any point, and the file is then all that is left.

`State.pending` has the requests that were added and are neither delivered nor refused nor given up;
nothing reads it. A restored queue is exactly that, each transfer once and under its own transaction
id, in the runs in which (`restored_pending`)

* the process stops only while no call of the queue is under way and `drain` holds no transfer,
* no `persist` replaces the file by a queue that has changed since it was encoded, and
* every amount can be encoded and every temporary file be written.

`take` writes the empty queue before the first transfer of the batch is tried, so that a stop
during a sweep loses the rest of the batch. A rename that comes late loses what the other goroutine
has put into the file (`transfers_lost`).
-/

namespace PaxosPayments.Client

def retryBase : ℕ := 2

def retryMax : ℕ := 60

def maxAttempts : ℕ := 10

structure TransferRequest where
  transactionID : String
  fromAccount : String
  toAccount : String
  fromBank : String
  toBank : String
  amount : Double
  deriving DecidableEq

structure QueuedTransfer where
  transactionID : String
  fromAccount : String
  toAccount : String
  fromBank : String
  toBank : String
  amount : Double
  attempts : ℕ
  deriving DecidableEq

def QueuedTransfer.request (q : QueuedTransfer) : TransferRequest :=
  ⟨q.transactionID, q.fromAccount, q.toAccount, q.fromBank, q.toBank, q.amount⟩

/-- The entry that `add` makes for a request. -/
def TransferRequest.queued (req : TransferRequest) : QueuedTransfer :=
  ⟨req.transactionID, req.fromAccount, req.toAccount, req.fromBank, req.toBank, req.amount, 0⟩

def retriable (err : Status) : Bool :=
  err.code ∈ [.unavailable, .deadlineExceeded, .resourceExhausted, .aborted]

/-- The goroutines that use the queue. -/
inductive Goroutine
  | menu
  | drain
  deriving DecidableEq

/-- Where a goroutine is in `persist`. -/
inductive Persist
  /-- It is not in a call of `persist`. -/
  | idle
  /-- It has called it and does not hold the lock yet. -/
  | called
  /-- It has encoded these items and let go of the lock. -/
  | encoded (items : List QueuedTransfer)
  deriving DecidableEq

/-- Where `drain` is, apart from its calls of `persist`. -/
inductive Sweep
  /-- It waits for the delay to pass. -/
  | waiting
  /-- It is about to deliver the first of these items. -/
  | retrying (items : List QueuedTransfer) (progress : Bool)
  /-- It could not deliver `item` and is about to put it back. -/
  | requeueing (item : QueuedTransfer) (items : List QueuedTransfer) (progress : Bool)
  deriving DecidableEq

/-- The transfers that only `drain` has. -/
def Sweep.held : Sweep → List QueuedTransfer
  | waiting => []
  | retrying items _ => items
  | requeueing item items _ => item :: items

/-- The queue in the memory of a process, with its goroutines. -/
structure OfflineQueue where
  items : List QueuedTransfer
  persist : Goroutine → Persist
  sweep : Sweep
  /-- The delay before the next sweep, in seconds. -/
  delay : ℕ

/-- The queue of a new process; `none` is a file that does not exist. -/
def newOfflineQueue (file : Option (List QueuedTransfer)) : OfflineQueue :=
  ⟨file.getD [], fun _ => .idle, .waiting, retryBase⟩

namespace OfflineQueue

def setPersist (q : OfflineQueue) (t : Goroutine) (w : Persist) : OfflineQueue :=
  { q with persist := Function.update q.persist t w }

def add (q : OfflineQueue) (req : TransferRequest) : OfflineQueue :=
  { q with items := q.items ++ [req.queued] }.setPersist .menu .called

def take (q : OfflineQueue) : OfflineQueue :=
  if q.items = [] then { q with delay := retryBase }
  else { q with items := [], sweep := .retrying q.items false }.setPersist .drain .called

def requeue (q : OfflineQueue) (item : QueuedTransfer) : OfflineQueue :=
  { q with items := q.items ++ [item] }.setPersist .drain .called

/-- The end of a sweep. -/
def backOff (q : OfflineQueue) (progress : Bool) : OfflineQueue :=
  { q with
    sweep := .waiting
    delay :=
      if progress then retryBase else if q.delay < retryMax then q.delay * 2 else q.delay }

/-- `json.MarshalIndent` refuses an amount that is not a number, and `persist` then returns. -/
def encode (q : OfflineQueue) (t : Goroutine) : OfflineQueue :=
  q.setPersist t (if q.items.all (·.amount.isFinite) then .encoded q.items else .idle)

/-- No call of the queue is under way and `drain` holds no transfer. -/
def atRest (q : OfflineQueue) : Bool :=
  q.persist .menu = .idle && q.persist .drain = .idle && q.sweep.held = []

end OfflineQueue

/-- The file of the queue and the process, if one is running. -/
structure State where
  file : Option (List QueuedTransfer)
  process : Option OfflineQueue
  pending : Multiset TransferRequest

namespace State

/-- Before the client has ever run. -/
def init : State := ⟨none, none, 0⟩

inductive Action
  /-- A process starts with `newOfflineQueue`. -/
  | start
  /-- The process stops. -/
  | stop
  /-- The menu calls `add`. -/
  | add (req : TransferRequest)
  /-- The delay is over and `drain` calls `take`. -/
  | take
  /-- The answer to the first transfer of the sweep; `none` is success. -/
  | deliver (err : Option Status)
  /-- `drain` calls `requeue`. -/
  | requeue
  /-- The sweep is over. -/
  | backOff
  /-- `persist` reads the queue. -/
  | encode (t : Goroutine)
  /-- `persist` replaces the file. -/
  | rename (t : Goroutine)
  /-- `persist` cannot make, write or close its temporary file. -/
  | fail (t : Goroutine)
  deriving DecidableEq

/-- A step of the process `q`. `drain` goes on when its `persist` has returned. -/
def stepIn (s : State) (q : OfflineQueue) : Action → Option State
  | .start => none
  | .stop => some { s with process := none }
  | .add req =>
    if q.persist .menu = .idle then
      some { s with process := some (q.add req), pending := req ::ₘ s.pending }
    else none
  | .take =>
    match q.persist .drain, q.sweep with
    | .idle, .waiting => some { s with process := some q.take }
    | _, _ => none
  | .deliver err =>
    match q.persist .drain, q.sweep, err with
    | .idle, .retrying (item :: items) _, none =>
      some { s with
        process := some { q with sweep := .retrying items true }
        pending := s.pending.erase item.request }
    | .idle, .retrying (item :: items) progress, some err =>
      if retriable err then
        some { s with process := some { q with sweep := .requeueing item items progress } }
      else
        -- a refusal on the merits counts as progress, as a delivery does
        some { s with
          process := some { q with sweep := .retrying items true }
          pending := s.pending.erase item.request }
    | _, _, _ => none
  | .requeue =>
    match q.sweep with
    | .requeueing item items progress =>
      if maxAttempts ≤ item.attempts + 1 then
        some { s with
          process := some { q with sweep := .retrying items progress }
          pending := s.pending.erase item.request }
      else
        some { s with
          process := some ({ q with sweep := .retrying items progress }.requeue
            { item with attempts := item.attempts + 1 }) }
    | _ => none
  | .backOff =>
    match q.persist .drain, q.sweep with
    | .idle, .retrying [] progress => some { s with process := some (q.backOff progress) }
    | _, _ => none
  | .encode t =>
    if q.persist t = .called then some { s with process := some (q.encode t) } else none
  | .rename t =>
    match q.persist t with
    | .encoded items => some { s with file := some items, process := some (q.setPersist t .idle) }
    | _ => none
  | .fail t =>
    match q.persist t with
    | .encoded _ => some { s with process := some (q.setPersist t .idle) }
    | _ => none

def step (s : State) (a : Action) : Option State :=
  match s.process, a with
  | none, .start => some { s with process := some (newOfflineQueue s.file) }
  | none, _ => none
  | some q, a => s.stepIn q a

/-- No transfer is on its way into the file or held by `drain` when the process stops, a file is
replaced only by the queue as it is, and every write succeeds. -/
def durable (s : State) (a : Action) : Bool :=
  match s.process, a with
  | some q, .stop => q.atRest
  | some _, .add req => req.amount.isFinite
  | some q, .rename t => q.persist t = .encoded q.items
  | some _, .fail _ => false
  | _, _ => true

end State

/-! ## What the file and the queue hold -/

/-- The requests of some entries, in any order. -/
def requests (items : List QueuedTransfer) : Multiset TransferRequest := items.map (·.request)

@[simp]
theorem requests_nil : requests [] = 0 := rfl

@[simp]
theorem requests_cons (item : QueuedTransfer) (items : List QueuedTransfer) :
    requests (item :: items) = item.request ::ₘ requests items := rfl

@[simp]
theorem requests_append (items items' : List QueuedTransfer) :
    requests (items ++ items') = requests items + requests items' := by
  simp [requests]

/-- Every pending transfer is in the queue or held by `drain`, and the file is the queue whenever no
`persist` is under way. -/
structure Intact (s : State) : Prop where
  finite : ∀ req ∈ s.pending, req.amount.isFinite = true
  stopped : s.process = none → requests (s.file.getD []) = s.pending
  running : ∀ q, s.process = some q → requests q.items + requests q.sweep.held = s.pending
  saved : ∀ q, s.process = some q → (∀ t, q.persist t = .idle) → s.file.getD [] = q.items

namespace Intact

variable {s s' : State} {q q' : OfflineQueue}

theorem init : Intact State.init := by
  constructor <;> simp [State.init]

/-- A process goes on with its items and its held transfers, and `file` is what it has written. -/
theorem next (hfinite : ∀ req ∈ s'.pending, req.amount.isFinite = true)
    (hq : s'.process = some q') (hrun : requests q'.items + requests q'.sweep.held = s'.pending)
    (hsaved : (∀ t, q'.persist t = .idle) → s'.file.getD [] = q'.items) : Intact s' where
  finite := hfinite
  stopped h := by simp [hq] at h
  running q h := by
    obtain rfl := Option.some.inj (hq.symm.trans h)
    exact hrun
  saved q h := by
    obtain rfl := Option.some.inj (hq.symm.trans h)
    exact hsaved

/-- The transfer in hand is delivered, refused or given up. -/
theorem resolve (h : Intact s) (hp : s.process = some q) {item : QueuedTransfer}
    {items : List QueuedTransfer} {sweep : Sweep} (hheld : q.sweep.held = item :: items)
    (hsweep : sweep.held = items) :
    Intact { s with
      process := some { q with sweep := sweep }
      pending := s.pending.erase item.request } := by
  refine .next (fun req hreq => h.finite req (Multiset.mem_of_mem_erase hreq)) rfl ?_ ?_
  · rw [← h.running q hp, hheld, hsweep, requests_cons, Multiset.add_cons,
      Multiset.erase_cons_head]
  · exact h.saved q hp

theorem start (h : Intact s) (hp : s.process = none) :
    Intact { s with process := some (newOfflineQueue s.file) } := by
  refine .next h.finite rfl ?_ fun _ => rfl
  simpa [newOfflineQueue, Sweep.held] using h.stopped hp

theorem stop (h : Intact s) (hp : s.process = some q) (hrest : q.atRest = true) :
    Intact { s with process := none } := by
  obtain ⟨⟨hmenu, hdrain⟩, hheld⟩ : (q.persist .menu = .idle ∧ q.persist .drain = .idle) ∧
      q.sweep.held = [] := by
    simpa [OfflineQueue.atRest] using hrest
  have hfile : s.file.getD [] = q.items := h.saved q hp (by rintro (_ | _) <;> assumption)
  refine ⟨h.finite, fun _ => ?_, nofun, nofun⟩
  rw [hfile, ← h.running q hp, hheld, requests_nil, add_zero]

theorem add (h : Intact s) (hp : s.process = some q) {req : TransferRequest}
    (hfin : req.amount.isFinite = true) :
    Intact { s with process := some (q.add req), pending := req ::ₘ s.pending } := by
  refine .next (fun r hr => ?_) rfl ?_ fun hidle => ?_
  · rcases Multiset.mem_cons.mp hr with rfl | hr
    · exact hfin
    · exact h.finite r hr
  · change requests (q.items ++ [req.queued]) + requests q.sweep.held = req ::ₘ s.pending
    rw [← h.running q hp, requests_append, add_right_comm, ← Multiset.singleton_add, add_comm]
    rfl
  · simpa [OfflineQueue.add, OfflineQueue.setPersist] using hidle .menu

theorem take (h : Intact s) (hp : s.process = some q) (hwait : q.sweep = .waiting) :
    Intact { s with process := some q.take } := by
  have hrun := h.running q hp
  rw [hwait, Sweep.held, requests_nil, add_zero] at hrun
  by_cases hnil : q.items = []
  · refine .next h.finite rfl ?_ ?_
    · simpa [OfflineQueue.take, hnil, hwait, Sweep.held] using hrun
    · simpa [OfflineQueue.take, hnil] using h.saved q hp
  · refine .next h.finite rfl ?_ fun hidle => ?_
    · simpa [OfflineQueue.take, hnil, OfflineQueue.setPersist, Sweep.held] using hrun
    · simpa [OfflineQueue.take, hnil, OfflineQueue.setPersist] using hidle .drain

theorem requeue (h : Intact s) (hp : s.process = some q) {item : QueuedTransfer}
    {items : List QueuedTransfer} {progress : Bool}
    (hsweep : q.sweep = .requeueing item items progress) (attempts : ℕ) :
    Intact { s with
      process := some ({ q with sweep := .retrying items progress }.requeue
        { item with attempts := attempts }) } := by
  refine .next h.finite rfl ?_ fun hidle => ?_
  · change requests (q.items ++ [_]) + requests items = s.pending
    rw [← h.running q hp, hsweep, Sweep.held, requests_append, add_assoc, requests_cons,
      requests_cons, requests_nil, Multiset.cons_add, zero_add]
    rfl
  · simpa [OfflineQueue.requeue, OfflineQueue.setPersist] using hidle .drain

theorem encode (h : Intact s) (hp : s.process = some q) {t : Goroutine} :
    Intact { s with process := some (q.encode t) } := by
  have hall : q.items.all (·.amount.isFinite) = true := by
    refine List.all_eq_true.mpr fun item hitem => h.finite item.request ?_
    rw [← h.running q hp]
    exact Multiset.mem_add.mpr (.inl (Multiset.mem_coe.mpr (List.mem_map_of_mem hitem)))
  refine .next h.finite rfl (h.running q hp) fun hidle => ?_
  simpa [OfflineQueue.encode, OfflineQueue.setPersist, hall] using hidle t

theorem stepIn (h : Intact s) (hp : s.process = some q) {a : State.Action}
    (hok : s.durable a = true) (hs : s.stepIn q a = some s') : Intact s' := by
  unfold State.stepIn at hs
  unfold State.durable at hok
  rw [hp] at hok
  cases a with
  | start => cases hs
  | stop =>
    obtain rfl := Option.some.inj hs
    exact h.stop hp hok
  | add req =>
    dsimp only at hs
    split_ifs at hs
    obtain rfl := Option.some.inj hs
    exact h.add hp hok
  | take =>
    dsimp only at hs
    split at hs
    case h_2 => cases hs
    case h_1 _ hwait =>
      obtain rfl := Option.some.inj hs
      exact h.take hp hwait
  | deliver err =>
    dsimp only at hs
    split at hs
    case h_1 item items _ _ hsweep =>
      obtain rfl := Option.some.inj hs
      exact h.resolve hp (by rw [hsweep]; rfl) rfl
    case h_2 item items progress err _ hsweep =>
      split_ifs at hs <;> obtain rfl := Option.some.inj hs
      · refine .next h.finite rfl ?_ (h.saved q hp)
        rw [← h.running q hp, hsweep]
        rfl
      · exact h.resolve hp (by rw [hsweep]; rfl) rfl
    case h_3 => cases hs
  | requeue =>
    dsimp only at hs
    split at hs
    case h_2 => cases hs
    case h_1 item items progress hsweep =>
      split_ifs at hs <;> obtain rfl := Option.some.inj hs
      · exact h.resolve hp (by rw [hsweep]; rfl) rfl
      · exact h.requeue hp hsweep _
  | backOff =>
    dsimp only at hs
    split at hs
    case h_2 => cases hs
    case h_1 progress _ hsweep =>
      obtain rfl := Option.some.inj hs
      refine .next h.finite rfl ?_ (h.saved q hp)
      rw [← h.running q hp, hsweep]
      rfl
  | encode t =>
    dsimp only at hs
    split_ifs at hs
    obtain rfl := Option.some.inj hs
    exact h.encode hp
  | rename t =>
    -- the file becomes the queue as it is
    simp only [of_decide_eq_true hok, Option.some.injEq] at hs
    subst hs
    exact .next h.finite rfl (h.running q hp) fun _ => rfl
  | fail t => cases hok

/-- **Every step keeps the pending transfers**, when it is `durable`. -/
theorem step (h : Intact s) {a : State.Action} (hok : s.durable a = true)
    (hs : s.step a = some s') : Intact s' := by
  unfold State.step at hs
  cases hp : s.process with
  | some q =>
    rw [hp] at hs
    exact h.stepIn hp hok hs
  | none =>
    rw [hp] at hs
    split at hs
    · obtain rfl := Option.some.inj hs
      exact h.start hp
    · cases hs
    · simp_all

end Intact

/-! ## Restarts -/

namespace State

/-- **A restored queue is what is pending.** In a run whose steps are all `durable`, a process that
starts has in its queue every transfer that was added and is neither delivered nor refused nor given
up: each exactly once, with its own transaction id, and no other. -/
theorem restored_pending {acts : List Action} {s s' : State} (h : Run step durable init acts s)
    (hs : s.step .start = some s') :
    ∃ q, s'.process = some q ∧ (q.items.map (·.request) : Multiset TransferRequest) =
      s'.pending := by
  have hI : Intact s := h.invariant (I := Intact) (fun _ _ _ hI hok hs => hI.step hok hs) .init
  have hp : s.process = none := by
    cases hp : s.process with
    | none => rfl
    | some q => simp [step, hp, stepIn] at hs
  simp only [step, hp, Option.some.injEq] at hs
  subst hs
  exact ⟨_, rfl, hI.stopped hp⟩

def payment (transactionID : String) : TransferRequest :=
  ⟨transactionID, "ACC1", "ACC2", "ICICI", "SBI", .finite 100⟩

/-- `add` up to its return. -/
def added (req : TransferRequest) : List Action := [.add req, .encode .menu, .rename .menu]

/-- A sweep over the one transfer of the queue, which cannot be delivered for now. -/
def putBack : List Action :=
  [.take, .encode .drain, .rename .drain, .deliver (some ⟨.unavailable, "bank offline"⟩), .requeue,
    .encode .drain, .rename .drain, .backOff]

theorem restored_pending_putBack :
    ∃ s s' q, Run step durable init (.start :: added (payment "T1") ++ putBack ++ [.stop]) s ∧
      s.step .start = some s' ∧ s'.process = some q ∧ s'.pending = {payment "T1"} ∧
      (q.items.map (·.request) : Multiset TransferRequest) = s'.pending := by
  obtain ⟨s, hs, hend⟩ := Run.exists_of_exec_map step durable init
    (.start :: added (payment "T1") ++ putBack ++ [.stop])
    (fun s => (s.process.isNone, s.pending)) (true, {payment "T1"}) (by decide +kernel)
  obtain ⟨hp, hpending⟩ := Prod.mk.inj hend
  have hstart : s.step .start = some { s with process := some (newOfflineQueue s.file) } := by
    simp [step, Option.isNone_iff_eq_none.mp hp]
  obtain ⟨q, hq, hitems⟩ := restored_pending hs hstart
  exact ⟨s, _, q, hs, hstart, hq, hpending, hitems⟩

/-- The menu encodes a queue that has `T2` only, `drain` puts `T1` back and returns from `persist`,
and then the menu replaces the file. -/
def lateRename : List Action :=
  [.take, .encode .drain, .rename .drain, .add (payment "T2"), .encode .menu,
    .deliver (some ⟨.unavailable, "bank offline"⟩), .requeue, .encode .drain, .rename .drain,
    .rename .menu, .backOff]

/-- **Transfers are lost** when the process stops before the answer to what `drain` has taken, and
when a `persist` of the menu ends after one of `drain` that began later. In both runs `T1` was added
and is not in the restored queue, though it is still pending. -/
theorem transfers_lost :
    (∃ s q, Run step always init
        (.start :: added (payment "T1") ++
          [.take, .encode .drain, .rename .drain, .stop, .start]) s ∧
      s.process = some q ∧ q.items.map (·.request) = [] ∧ s.pending = {payment "T1"}) ∧
    ∃ s q, Run step always init
        (.start :: added (payment "T1") ++ lateRename ++ [.stop, .start]) s ∧
      s.process = some q ∧ q.items.map (·.request) = [payment "T2"] ∧
      s.pending = {payment "T1", payment "T2"} := by
  have hends : ∀ (acts : List Action) (items : List TransferRequest)
      (pending : Multiset TransferRequest),
      (exec step always init acts).map
        (fun s => (s.process.map fun q => q.items.map (·.request), s.pending)) =
          some (some items, pending) →
      ∃ s q, Run step always init acts s ∧ s.process = some q ∧
        q.items.map (·.request) = items ∧ s.pending = pending := by
    intro acts items pending hend
    obtain ⟨s, hs, hend⟩ := Run.exists_of_exec_map step always init acts _ _ hend
    obtain ⟨hq, hpending⟩ := Prod.mk.inj hend
    obtain ⟨q, hp, hitems⟩ := Option.map_eq_some_iff.mp hq
    exact ⟨s, q, hs, hp, hitems, hpending⟩
  exact ⟨hends _ _ _ (by decide +kernel), hends _ _ _ (by decide +kernel)⟩

end State

end PaxosPayments.Client
