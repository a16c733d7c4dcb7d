import PaxosPayments.Paxos.Ballot
import Mathlib.Logic.Function.Basic

/-!
# One replica

The state of a replica and the code that runs on it between two broadcasts: `log.go` (the accepted
entries and the promise) and the handlers and local parts of `node.go`. Everything here is a
function of one replica's state.

Writes to the log may fail. Each function that writes takes the number `disk` of writes that succeed
before one fails; a failed write leaves the log as it was and takes the error branch of the source.

`Node.history` is not in the source: it lists, newest first, the ballots promised, the entries the
replica voted for (in `handleAccept`, or as leader in `replicate`), those it adopted from a leader
in `catchUp`, and the commands it passed to the state machine. Nothing reads it. Timers
(`electionAt`, `lastQuorum`) are left out: an election or a check-quorum may happen at any time. So
are the waiting callers of `Propose` (`results`), which influence nothing here.
-/

namespace PaxosPayments.Paxos

inductive Role
  | follower
  | candidate
  | leader
  deriving DecidableEq, Repr

/-! ## The log -/

/-- A replica's accepted entries and the highest ballot it has promised. -/
structure Log where
  entries : ℕ → Option Entry
  maxSlot : ℕ
  promised : Ballot

namespace Log

/-- `NewMemLog`, or `OpenLog` on an empty directory. -/
def empty : Log := ⟨fun _ => none, 0, Ballot.zero⟩

/-- `Log.Promise`: the ballot is recorded whatever was there before. -/
def promise (l : Log) (b : Ballot) : Log := { l with promised := b }

/-- `Log.Accept`: the entry replaces any earlier one for its slot. -/
def accept (l : Log) (e : Entry) : Log :=
  { l with
    entries := Function.update l.entries e.slot (some e)
    maxSlot := if e.slot > l.maxSlot then e.slot else l.maxSlot }

/-- Every accepted entry at or above `first`, in slot order. -/
def entriesFrom (l : Log) (first : ℕ) : List Entry :=
  (List.range' first (l.maxSlot + 1 - first)).filterMap l.entries

@[simp] theorem promise_promised (l : Log) (b : Ballot) : (l.promise b).promised = b := rfl

@[simp] theorem accept_promised (l : Log) (e : Entry) : (l.accept e).promised = l.promised := rfl

@[simp] theorem accept_entries_self (l : Log) (e : Entry) :
    (l.accept e).entries e.slot = some e := by simp [accept]

@[simp] theorem accept_entries_ne (l : Log) (e : Entry) {s : ℕ} (h : s ≠ e.slot) :
    (l.accept e).entries s = l.entries s := by simp [accept, h]

theorem maxSlot_le_accept (l : Log) (e : Entry) : l.maxSlot ≤ (l.accept e).maxSlot := by
  simp only [accept]
  split <;> omega

theorem slot_le_accept (l : Log) (e : Entry) : e.slot ≤ (l.accept e).maxSlot := by
  simp only [accept]
  split <;> omega

theorem mem_entriesFrom {l : Log} {first : ℕ} {e : Entry} :
    e ∈ l.entriesFrom first ↔
      ∃ s, first ≤ s ∧ s ≤ l.maxSlot ∧ l.entries s = some e := by
  simp only [entriesFrom, List.mem_filterMap, List.mem_range'_1]
  constructor
  · rintro ⟨s, hs, he⟩
    exact ⟨s, hs.1, by omega, he⟩
  · rintro ⟨s, h₁, h₂, he⟩
    exact ⟨s, by omega, he⟩

end Log

/-! ## The replica -/

inductive Event
  | promised (b : Ballot)
  | voted (e : Entry)
  | adopted (e : Entry)
  | applied (slot : ℕ) (command : Command)
  deriving DecidableEq, Repr

structure Node where
  log : Log
  role : Role
  /-- The ballot this replica leads under, when leader. -/
  ballot : Ballot
  /-- Best guess at the current leader. -/
  leader : NodeID
  /-- Leader only: the next slot to hand out. -/
  nextSlot : ℕ
  /-- A catch-up fetch is already in flight. -/
  catchingUp : Bool
  committed : ℕ → Bool
  appliedIndex : ℕ
  history : List Event

namespace Node

/-- `NewNode` over an empty log. -/
def fresh : Node where
  log := Log.empty
  role := .follower
  ballot := Ballot.zero
  leader := ""
  nextSlot := 0
  catchingUp := false
  committed := fun _ => false
  appliedIndex := 0
  history := []

/-- A successful `log.Promise`. -/
def promise (n : Node) (b : Ballot) : Node :=
  { n with log := n.log.promise b, history := .promised b :: n.history }

/-- A successful `log.Accept` by which the replica votes, in `handleAccept` or in `replicate`. -/
def vote (n : Node) (e : Entry) : Node :=
  { n with log := n.log.accept e, history := .voted e :: n.history }

/-- A successful `log.Accept` of a leader's entry, in `catchUp`. -/
def adopt (n : Node) (e : Entry) : Node :=
  { n with log := n.log.accept e, history := .adopted e :: n.history }

@[simp] theorem promise_log (n : Node) (b : Ballot) : (n.promise b).log = n.log.promise b := rfl

@[simp] theorem promise_history (n : Node) (b : Ballot) :
    (n.promise b).history = .promised b :: n.history := rfl

@[simp] theorem promise_role (n : Node) (b : Ballot) : (n.promise b).role = n.role := rfl

@[simp] theorem vote_log (n : Node) (e : Entry) : (n.vote e).log = n.log.accept e := rfl

@[simp] theorem vote_history (n : Node) (e : Entry) :
    (n.vote e).history = .voted e :: n.history := rfl

@[simp] theorem vote_role (n : Node) (e : Entry) : (n.vote e).role = n.role := rfl

@[simp] theorem adopt_log (n : Node) (e : Entry) : (n.adopt e).log = n.log.accept e := rfl

@[simp] theorem adopt_history (n : Node) (e : Entry) :
    (n.adopt e).history = .adopted e :: n.history := rfl

/-- `stepDown`. The promise is raised to `seen` only when that is above it. -/
def stepDown (n : Node) (seen : Ballot) (disk : ℕ) : Node :=
  let n' := { n with role := .follower }
  if !seen.isZero && n.log.promised.less seen && disk ≠ 0 then n'.promise seen else n'

def markCommitted (n : Node) (slots : List ℕ) : Node :=
  { n with committed := fun s => n.committed s || slots.contains s }

/-! ### Message handling -/

def handlePrepare (id : NodeID) (n : Node) (msg : Message) (disk : ℕ) : Node × Message :=
  let promised := n.log.promised
  if msg.ballot.less promised then
    (n, { kind := .promise, sender := id, ok := false, ballot := promised })
  else if disk = 0 then
    (n, { kind := .promise, sender := id, ok := false, ballot := promised })
  else
    let n' := { n.promise msg.ballot with role := .follower, leader := msg.sender }
    (n', { kind := .promise, sender := id, ok := true, ballot := msg.ballot,
           entries := n'.log.entriesFrom msg.slot })

def handleAccept (id : NodeID) (n : Node) (msg : Message) (disk : ℕ) : Node × Message :=
  let promised := n.log.promised
  let reply : Message := { kind := .accepted, sender := id, slot := msg.slot }
  if msg.ballot.less promised then
    (n, { reply with ok := false, ballot := promised })
  else if promised.less msg.ballot then
    -- a ballot that was not explicitly promised is still binding: promise it first
    if disk = 0 then
      (n, { reply with ok := false, ballot := promised })
    else if disk = 1 then
      (n.promise msg.ballot, { reply with ok := false, ballot := msg.ballot })
    else
      ({ (n.promise msg.ballot).vote ⟨msg.slot, msg.ballot, msg.command⟩ with
          role := .follower, leader := msg.sender },
        { reply with ok := true, ballot := msg.ballot })
  else if disk = 0 then
    (n, { reply with ok := false, ballot := msg.ballot })
  else
    ({ n.vote ⟨msg.slot, msg.ballot, msg.command⟩ with role := .follower, leader := msg.sender },
      { reply with ok := true, ballot := msg.ballot })

/-- A catch-up goroutine to be started: whom to ask, and the first and last slot to learn. -/
structure Fetch where
  source : NodeID
  first : ℕ
  commitIndex : ℕ
  deriving DecidableEq, Repr

/-- The leader's heartbeat. The slots it reports as committed are fetched from the leader, never
taken from what this replica holds. -/
def handleCommit (id : NodeID) (n : Node) (msg : Message) : Node × Message × Option Fetch :=
  let promised := n.log.promised
  if msg.ballot.less promised then
    (n, { kind := .commit, sender := id, ok := false, ballot := promised }, none)
  else
    let fetch := decide (msg.commitIndex > n.appliedIndex) && !n.catchingUp
    ({ n with role := .follower, leader := msg.sender, catchingUp := n.catchingUp || fetch },
      { kind := .commit, sender := id, ok := true, ballot := msg.ballot },
      if fetch then some ⟨msg.sender, uint64Succ n.appliedIndex, msg.commitIndex⟩ else none)

def handlePing (id : NodeID) (n : Node) : Message :=
  { kind := .ping, sender := id, ok := true, ballot := n.log.promised }

def handleCatchUp (id : NodeID) (n : Node) (msg : Message) : Message :=
  { kind := .catchUp, sender := id, ok := true, entries := n.log.entriesFrom msg.slot }

/-- `Handle`, the entry point of every transport. -/
def handle (id : NodeID) (n : Node) (msg : Message) (disk : ℕ) : Node × Message × Option Fetch :=
  match msg.kind with
  | .prepare => let (n', reply) := handlePrepare id n msg disk; (n', reply, none)
  | .accept => let (n', reply) := handleAccept id n msg disk; (n', reply, none)
  | .commit => handleCommit id n msg
  | .catchUp => (n, handleCatchUp id n msg, none)
  | .ping => (n, handlePing id n, none)
  | _ => (n, { kind := msg.kind, sender := id, ok := false }, none)

/-! ### Adopting a leader's entries -/

/-- The entry that a list of entries holds for a slot; a later one replaces an earlier one. -/
def chosenEntry (entries : List Entry) (slot : ℕ) : Option Entry :=
  entries.reverse.find? fun e => e.slot == slot

/-- The loop of `catchUp` from `slot` on, for at most `fuel` slots: the slots learned and the
replica after the adoptions. It stops at a gap, or when an entry cannot be written. -/
def catchUpLoop (entries : List Entry) : ℕ → ℕ → ℕ → Node → List ℕ × Node
  | 0, _, _, n => ([], n)
  | fuel + 1, slot, disk, n =>
    match chosenEntry entries slot with
    | none => ([], n)
    | some e =>
      let same := match n.log.entries slot with
        | some l => decide (l.ballot = e.ballot ∧ l.command = e.command)
        | none => false
      if same then
        let (slots, n') := catchUpLoop entries fuel (slot + 1) disk n
        (slot :: slots, n')
      else if disk = 0 then ([], n)
      else
        let (slots, n') := catchUpLoop entries fuel (slot + 1) (disk - 1) (n.adopt e)
        (slot :: slots, n')

/-- The end of `catchUp`: with the reply of the source, if it came in time. -/
def concludeCatchUp (n : Node) (first commitIndex : ℕ) (reply : Option Message) (disk : ℕ) : Node :=
  match reply with
  | none => { n with catchingUp := false }
  | some r =>
    if !r.ok then { n with catchingUp := false }
    else
      let (slots, n') := catchUpLoop r.entries (commitIndex + 1 - first) first disk n
      { n'.markCommitted slots with catchingUp := false }

/-! ### Applying -/

/-- One round of `drainApplicable`: the next slot, if it is committed and stored here. -/
def applyNext (n : Node) : Option Node :=
  let next := uint64Succ n.appliedIndex
  if n.committed next then
    match n.log.entries next with
    | none => none
    | some e =>
      some { n with
        appliedIndex := next
        -- a no-op is not passed to the state machine; it counts as the empty command
        history := .applied next (if e.isNoop then [] else e.command) :: n.history }
  else none

/-! ### Winning an election -/

/-- One gathered entry: it counts when it is at or above `first`, and replaces the best entry so far
for its slot when its ballot is higher. -/
def gatherStep (first : ℕ) (acc : (ℕ → Option Entry) × ℕ) (e : Entry) : (ℕ → Option Entry) × ℕ :=
  if e.slot < first then acc
  else
    let replaces := match acc.1 e.slot with
      | none => true
      | some cur => cur.ballot.less e.ballot
    (if replaces then Function.update acc.1 e.slot (some e) else acc.1,
      if e.slot > acc.2 then e.slot else acc.2)

/-- The map `best` and the number `maxSlot` that `becomeLeader` builds. -/
def gather (first : ℕ) (gathered : List Entry) : (ℕ → Option Entry) × ℕ :=
  gathered.foldl (gatherStep first) (fun _ => none, 0)

/-- The command re-proposed for a slot; a gap is filled with a no-op. -/
def recoveredCommand (best : ℕ → Option Entry) (slot : ℕ) : Command :=
  match best slot with
  | some e => e.command
  | none => []

/-- The critical section of `becomeLeader`. -/
def becomeLeader (id : NodeID) (n : Node) (b : Ballot) (first maxSlot : ℕ) : Node :=
  let next := uint64Succ maxSlot
  { n with role := .leader, leader := id, ballot := b,
           nextSlot := if next < first then first else next }

end Node

end PaxosPayments.Paxos
