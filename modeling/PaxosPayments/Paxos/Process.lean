import PaxosPayments.Paxos.Group

/-!
# The process of a replica

One replica at the granularity of its critical sections. `Group` takes a call of `Handle`, the end
of a broadcast or a round of the apply loop as one step. In the source each of them locks the node
or the log several times, and whatever else runs in the process may come between. Here every
goroutine is at the point before its next critical section, and a step is one critical section of
one of them, a reply that it has waited for, or a command applied.

The calls of `Propose` are part of the state, with the channels on which they wait: `results` has
the call that is registered for a slot. The other replicas are left open: any message may come in
at any time, and any replies may come in to a broadcast. The state machine is a parameter; `applied`
lists, newest first, what the apply loop has done, and nothing reads it.

A goroutine that nothing interrupts does to the replica what the functions of `Node` say
(`handlePrepare_alone`, `handleAccept_alone`, `handleCommit_next`, `catchUp_alone`,
`apply_alone`).
-/

namespace PaxosPayments.Paxos

/-- `stepDown`, before its next critical section. -/
inductive StepDown
  | role (seen : Ballot)
  | compare (seen : Ballot)
  | promise (seen : Ballot)
  deriving DecidableEq

/-- One critical section of `stepDown`; `disk` says whether a write in it succeeds. -/
def StepDown.next (n : Node) (disk : Bool) : StepDown → Node × Option StepDown
  | role seen => ({ n with role := .follower }, if seen.isZero then none else some (compare seen))
  | compare seen => (n, if n.log.promised.less seen then some (promise seen) else none)
  | promise seen => (if disk then n.promise seen else n, none)

/-- `replicate`, before its next critical section. -/
inductive Replication
  | check
  | store (b : Ballot)
  /-- It waits for the replies to its ACCEPT. -/
  | collect (b : Ballot)
  | stepDown (d : StepDown)
  | mark
  deriving DecidableEq

/-- How far a section has brought `replicate`. -/
inductive Progress
  | goOn (r : Replication)
  | returned (ok : Bool)

/-- One critical section of `replicate`, or the replies that it waits for. -/
def Replication.next (cfg : Config) (slot : ℕ) (command : Command) (n : Node) (disk : Bool)
    (replies : List Message) : Replication → Node × Progress
  | check => (n, if n.role ≠ .leader then .returned false else .goOn (store n.ballot))
  | store b =>
    if disk then (n.vote ⟨slot, b, command⟩, .goOn (collect b)) else (n, .returned false)
  | collect b =>
    match ReplicaGroup.superseding b replies with
    | some r => (n, .goOn (stepDown (.role r.ballot)))
    | none => (n, if ReplicaGroup.votes replies < cfg.quorum then .returned false else .goOn mark)
  | stepDown d =>
    match d.next n disk with
    | (n', some d') => (n', .goOn (stepDown d'))
    | (n', none) => (n', .returned false)
  | mark => (n.markCommitted [slot], .returned true)

/-- A goroutine of the replica other than the apply loop and the calls of `Propose`, before its next
critical section. -/
inductive Goroutine
  /-- `handlePrepare`, about to read the promise. -/
  | prepare (msg : Message)
  | promising (msg : Message)
  /-- `handleAccept`, about to read the promise. -/
  | accept (msg : Message)
  | accepting (msg : Message)
  | storing (msg : Message)
  /-- `handlePrepare` or `handleAccept`, about to follow the sender. -/
  | follow (sender : NodeID)
  /-- `handleCommit`, about to read the promise. -/
  | commit (msg : Message)
  | following (msg : Message)
  /-- `catchUp`, waiting for the reply. -/
  | fetching (f : Node.Fetch)
  /-- `catchUp`, about to look up a slot for which it has `e`. -/
  | comparing (entries : List Entry) (e : Entry) (slot last : ℕ) (slots : List ℕ)
  | adopting (entries : List Entry) (e : Entry) (slot last : ℕ) (slots : List ℕ)
  | marking (slots : List ℕ)
  | fetched
  /-- `campaign`, at its beginning. -/
  | campaign
  /-- `campaign`, waiting for the replies to its probe. -/
  | probing
  | probed
  | choosing
  | campaigning (next : Ballot)
  | starting (next : Ballot)
  /-- `campaign`, waiting for the replies to its PREPARE. -/
  | polling (next : Ballot) (first : ℕ)
  /-- `campaign`, about to read the entries of this replica. -/
  | counting (next : Ballot) (first : ℕ) (replies : List Message)
  | lost (highest : Ballot)
  | becoming (next : Ballot) (best : ℕ → Option Entry) (first maxSlot : ℕ)
  /-- The recovery of `becomeLeader`, at a slot. -/
  | recovery (best : ℕ → Option Entry) (maxSlot slot : ℕ) (r : Replication)
  | stepDown (d : StepDown)
  /-- `broadcastCommit`, at its beginning. -/
  | beat
  /-- `broadcastCommit`, waiting for the replies. -/
  | beating (b : Ballot)
  | checkQuorum

namespace Goroutine

/-- The end of the loop of `catchUp`. -/
def learned (slots : List ℕ) : Goroutine := if slots = [] then fetched else marking slots

/-- The loop of `catchUp` at a slot. -/
def learn (entries : List Entry) (slot last : ℕ) (slots : List ℕ) : Goroutine :=
  if slot ≤ last then
    match Node.chosenEntry entries slot with
    | some e => comparing entries e slot last slots
    | none => learned slots
  else learned slots

/-- One critical section, or the replies that the goroutine waits for. `disk` says whether a write
in it succeeds, and `expired` whether the last quorum is too long ago. -/
def next (cfg : Config) (id : NodeID) (n : Node) (disk expired : Bool) (replies : List Message) :
    Goroutine → Node × Option Goroutine
  | prepare msg => (n, if msg.ballot.less n.log.promised then none else some (promising msg))
  | promising msg => if disk then (n.promise msg.ballot, some (follow msg.sender)) else (n, none)
  | accept msg =>
    (n, if msg.ballot.less n.log.promised then none
      else if n.log.promised.less msg.ballot then some (accepting msg) else some (storing msg))
  | accepting msg => if disk then (n.promise msg.ballot, some (storing msg)) else (n, none)
  | storing msg =>
    if disk then (n.vote ⟨msg.slot, msg.ballot, msg.command⟩, some (follow msg.sender))
    else (n, none)
  | follow sender => ({ n with role := .follower, leader := sender }, none)
  | commit msg => (n, if msg.ballot.less n.log.promised then none else some (following msg))
  | following msg =>
    let fetch := decide (msg.commitIndex > n.appliedIndex) && !n.catchingUp
    ({ n with role := .follower, leader := msg.sender, catchingUp := n.catchingUp || fetch },
      if fetch then some (fetching ⟨msg.sender, uint64Succ n.appliedIndex, msg.commitIndex⟩)
      else none)
  | fetching f =>
    match replies.head? with
    | some r => (n, some (if r.ok then learn r.entries f.first f.commitIndex [] else fetched))
    | none => (n, some fetched)
  | comparing entries e slot last slots =>
    let same := match n.log.entries slot with
      | some l => decide (l.ballot = e.ballot ∧ l.command = e.command)
      | none => false
    (n, some (if same then learn entries (uint64Succ slot) last (slots ++ [slot])
      else adopting entries e slot last slots))
  | adopting entries e slot last slots =>
    if disk then (n.adopt e, some (learn entries (uint64Succ slot) last (slots ++ [slot])))
    else (n, some (learned slots))
  | marking slots => (n.markCommitted slots, some fetched)
  | fetched => ({ n with catchingUp := false }, none)
  | campaign =>
    if n.role = .leader then (n, none) else ({ n with role := .candidate }, some probing)
  | probing =>
    (n, some (if replies.length + 1 < cfg.quorum then stepDown (.role Ballot.zero) else probed))
  | probed => (n, if n.role = .candidate then some choosing else none)
  | choosing => (n, some (campaigning ⟨uint64Succ n.log.promised.num, id⟩))
  | campaigning next =>
    if disk then (n.promise next, some (starting next))
    else (n, some (stepDown (.role Ballot.zero)))
  | starting next => (n, some (polling next (uint64Succ n.appliedIndex)))
  | polling next first => (n, some (counting next first replies))
  | counting next first replies =>
    let highest := ReplicaGroup.highest next replies
    let best := Node.gather first (ReplicaGroup.gathered n first replies)
    (n, some (if ReplicaGroup.votes replies < cfg.quorum then
        if next.less highest then lost highest else stepDown (.role Ballot.zero)
      else becoming next best.1 first best.2))
  | lost highest =>
    (if disk then n.promise highest else n, some (stepDown (.role Ballot.zero)))
  | becoming next best first maxSlot =>
    (n.becomeLeader id next first maxSlot,
      if first ≤ maxSlot then some (recovery best maxSlot first .check) else none)
  | recovery best maxSlot slot r =>
    match r.next cfg slot (Node.recoveredCommand best slot) n disk replies with
    | (n', .goOn r') => (n', some (recovery best maxSlot slot r'))
    | (n', .returned ok) =>
      (n', if ok && uint64Succ slot ≤ maxSlot then
          some (recovery best maxSlot (uint64Succ slot) .check) else none)
  | stepDown d => let out := d.next n disk; (out.1, out.2.map stepDown)
  | beat => (n, some (beating n.ballot))
  | beating b =>
    match ReplicaGroup.superseding b replies with
    | some r => (n, some (stepDown (.role r.ballot)))
    | none => (n, if cfg.quorum ≤ ReplicaGroup.votes replies then none else some checkQuorum)
  | checkQuorum =>
    (n, if n.role = .leader ∧ expired = true then some (stepDown (.role Ballot.zero)) else none)

/-- The goroutines that the outside and the timers start. -/
def starts : Goroutine → Bool
  | prepare _ | accept _ | commit _ | campaign | beat => true
  | _ => false

end Goroutine

/-! ## Calls and the apply loop -/

/-- A call of `Propose` after its slot was handed out. `ρ` are the results of commands, and `none`
is the result that a waiter gets for a no-op. -/
inductive ProposeStage (ρ : Type*)
  | replicating (r : Replication)
  /-- `replicate` has failed, and the waiter is about to be deleted. -/
  | failed
  | steppingDown (d : StepDown)
  /-- It waits for the result. -/
  | waiting
  /-- It has returned, with a result or an error. -/
  | returned (result : Option (Option ρ))
  deriving DecidableEq

structure Proposal (ρ : Type*) where
  command : Command
  slot : ℕ
  stage : ProposeStage ρ
  /-- What has been sent on its channel. -/
  channel : Option (Option ρ)

/-- The apply loop. -/
inductive Applier (ρ : Type*)
  | idle
  /-- The slot is committed, and the loop is about to read its entry. -/
  | found (slot : ℕ)
  | got (slot : ℕ) (e : Entry)
  /-- The entry is applied. -/
  | done (slot : ℕ) (result : Option ρ)
  /-- The result is about to be sent to the call that has waited for it. -/
  | sending (call : ℕ) (result : Option ρ)

/-- What the apply loop has done for a slot. A no-op is not passed to the state machine and has no
result. -/
structure Application (ρ : Type*) where
  slot : ℕ
  command : Command
  result : Option ρ
  deriving DecidableEq

structure Process (σ ρ : Type*) where
  node : Node
  machine : σ
  /-- The call that waits for a slot. -/
  results : ℕ → Option ℕ
  calls : List (Proposal ρ)
  goroutines : ℕ → Option Goroutine
  /-- The number of the next goroutine. -/
  fresh : ℕ
  applier : Applier ρ
  applied : List (Application ρ)

namespace Process

variable {σ ρ : Type*}

/-- `NewNode` over a log. -/
def init (log : Log) (machine : σ) : Process σ ρ :=
  ⟨{ Node.fresh with log := log }, machine, fun _ => none, [], fun _ => none, 0, .idle, []⟩

inductive Action
  | propose (command : Command)
  /-- The next critical section of a call. -/
  | proceed (k : ℕ) (disk : Bool) (replies : List Message)
  /-- A waiting call receives its result. -/
  | receive (k : ℕ)
  /-- The context of a waiting call ends, or the replica is stopped. -/
  | cancel (k : ℕ)
  | start (g : Goroutine)
  | advance (gid : ℕ) (disk expired : Bool) (replies : List Message)
  | apply

/-- The first critical section of `Propose`, on a leader. -/
def handOut (p : Process σ ρ) (command : Command) : Process σ ρ :=
  { p with
    node := { p.node with nextSlot := uint64Succ p.node.nextSlot }
    results := Function.update p.results p.node.nextSlot (some p.calls.length)
    calls := p.calls ++ [⟨command, p.node.nextSlot, .replicating .check, none⟩] }

def setCall (p : Process σ ρ) (k : ℕ) (c : Proposal ρ) : Process σ ρ :=
  { p with calls := p.calls.set k c }

/-- One critical section of a call that does not wait. -/
def proceed (cfg : Config) (p : Process σ ρ) (k : ℕ) (c : Proposal ρ) (disk : Bool)
    (replies : List Message) : Option (Process σ ρ) :=
  match c.stage with
  | .replicating r =>
    match r.next cfg c.slot c.command p.node disk replies with
    | (n, .goOn r) => some ({ p with node := n }.setCall k { c with stage := .replicating r })
    | (n, .returned ok) =>
      some ({ p with node := n }.setCall k { c with stage := if ok then .waiting else .failed })
  | .failed =>
    some ({ p with results := Function.update p.results c.slot none }.setCall k
      { c with stage := .steppingDown (.role Ballot.zero) })
  | .steppingDown d =>
    match d.next p.node disk with
    | (n, some d) => some ({ p with node := n }.setCall k { c with stage := .steppingDown d })
    | (n, none) => some ({ p with node := n }.setCall k { c with stage := .returned none })
  | .waiting | .returned _ => none

/-- The next step of the apply loop, over a state machine that `apply` describes. -/
def applyLoop (apply : σ → ℕ → Command → σ × ρ) (p : Process σ ρ) : Process σ ρ :=
  match p.applier with
  | .idle =>
    if p.node.committed (uint64Succ p.node.appliedIndex) then
      { p with applier := .found (uint64Succ p.node.appliedIndex) }
    else p
  | .found slot =>
    match p.node.log.entries slot with
    | none => { p with applier := .idle }
    | some e => { p with applier := .got slot e }
  | .got slot e =>
    let p := { p with
      node := { p.node with
        history := .applied slot (if e.isNoop then [] else e.command) :: p.node.history } }
    if e.isNoop then { p with applier := .done slot none, applied := ⟨slot, [], none⟩ :: p.applied }
    else
      let (machine, r) := apply p.machine slot e.command
      { p with
        machine := machine
        applier := .done slot (some r)
        applied := ⟨slot, e.command, some r⟩ :: p.applied }
  | .done slot result =>
    { p with
      node := { p.node with appliedIndex := slot }
      results := Function.update p.results slot none
      applier := match p.results slot with
        | some k => .sending k result
        | none => .idle }
  | .sending k result =>
    { p with
      calls := p.calls.modify k fun c => { c with channel := some result }
      applier := .idle }

variable (cfg : Config) (id : NodeID) (apply : σ → ℕ → Command → σ × ρ)

def step (p : Process σ ρ) : Action → Option (Process σ ρ)
  | .propose command => some (if p.node.role = .leader then p.handOut command else p)
  | .proceed k disk replies =>
    match p.calls[k]? with
    | some c => p.proceed cfg k c disk replies
    | none => none
  | .receive k =>
    match p.calls[k]? with
    | some c =>
      match c.stage, c.channel with
      | .waiting, some result => some (p.setCall k { c with stage := .returned (some result) })
      | _, _ => none
    | none => none
  | .cancel k =>
    match p.calls[k]? with
    | some c =>
      match c.stage with
      | .waiting => some (p.setCall k { c with stage := .returned none })
      | _ => none
    | none => none
  | .start g =>
    if g.starts then
      some { p with
        goroutines := Function.update p.goroutines p.fresh (some g), fresh := p.fresh + 1 }
    else none
  | .advance gid disk expired replies =>
    match p.goroutines gid with
    | some g =>
      let (n, g') := g.next cfg id p.node disk expired replies
      some { p with node := n, goroutines := Function.update p.goroutines gid g' }
    | none => none
  | .apply => some (p.applyLoop apply)

end Process

/-! ## Goroutines that nothing interrupts -/

/-- The goroutine runs to its end by itself, and takes the replica from `n` to the last node. -/
inductive Alone (cfg : Config) (id : NodeID) : Node → Goroutine → Node → Prop
  | last {n n' : Node} {g : Goroutine} (disk expired : Bool) (replies : List Message)
      (h : g.next cfg id n disk expired replies = (n', none)) : Alone cfg id n g n'
  | more {n n' n'' : Node} {g g' : Goroutine} (disk expired : Bool) (replies : List Message)
      (h : g.next cfg id n disk expired replies = (n', some g')) (hrest : Alone cfg id n' g' n'') :
      Alone cfg id n g n''

variable {cfg : Config} {id : NodeID} {n n' : Node}

/-- Such a goroutine is a run of the process, and nothing but the replica changes in it. -/
theorem Alone.run {σ ρ : Type*} {apply : σ → ℕ → Command → σ × ρ} {g : Goroutine}
    (h : Alone cfg id n g n') {p : Process σ ρ} {gid : ℕ} (hn : p.node = n)
    (hg : p.goroutines gid = some g) :
    ∃ acts, Run (Process.step cfg id apply) always p acts
      { p with node := n', goroutines := Function.update p.goroutines gid none } := by
  induction h generalizing p with
  | last disk expired replies h =>
    refine ⟨[.advance gid disk expired replies], .cons rfl ?_ (.nil _)⟩
    simp only [Process.step, hg, hn, h]
  | @more _ n₁ _ _ g' disk expired replies h _ ih =>
    obtain ⟨acts, hrun⟩ := ih (p := { p with
      node := n₁, goroutines := Function.update p.goroutines gid (some g') }) rfl
      (Function.update_self ..)
    simp only [Function.update_idem] at hrun
    refine ⟨.advance gid disk expired replies :: acts, .cons rfl ?_ hrun⟩
    simp only [Process.step, hg, hn, h]

theorem handlePrepare_alone (n : Node) (msg : Message) (disk : ℕ) :
    Alone cfg id n (.prepare msg) (n.handlePrepare id msg disk).1 := by
  unfold Node.handlePrepare
  by_cases hless : msg.ballot.less n.log.promised = true
  · simp only [if_pos hless]
    exact .last true true [] (by simp only [Goroutine.next, if_pos hless])
  have hread : Goroutine.next cfg id n true true [] (.prepare msg) =
      (n, some (.promising msg)) := by
    simp only [Goroutine.next, if_neg hless]
  simp only [if_neg hless]
  refine .more true true [] hread ?_
  split_ifs with hdisk
  · exact .last false true [] rfl
  · exact .more true true [] rfl (.last true true [] rfl)

theorem handleAccept_alone (n : Node) (msg : Message) (disk : ℕ) :
    Alone cfg id n (.accept msg) (n.handleAccept id msg disk).1 := by
  have hstore : ∀ n : Node, Alone cfg id n (.storing msg)
      { n.vote ⟨msg.slot, msg.ballot, msg.command⟩ with role := .follower, leader := msg.sender } :=
    fun n => .more true true [] rfl (.last true true [] rfl)
  have hfail : ∀ n : Node, Alone cfg id n (.storing msg) n := fun n => .last false true [] rfl
  have hraised : ∀ n'', Alone cfg id (n.promise msg.ballot) (.storing msg) n'' →
      Alone cfg id n (.accepting msg) n'' := fun n'' h => .more true true [] rfl h
  unfold Node.handleAccept
  by_cases hless : msg.ballot.less n.log.promised = true
  · simp only [if_pos hless]
    exact .last true true [] (by simp only [Goroutine.next, if_pos hless])
  by_cases habove : n.log.promised.less msg.ballot = true
  · have hread : Goroutine.next cfg id n true true [] (.accept msg) =
        (n, some (.accepting msg)) := by
      simp only [Goroutine.next, if_neg hless, if_pos habove]
    simp only [if_neg hless, if_pos habove]
    refine .more true true [] hread ?_
    split_ifs with hdisk hdisk'
    · exact .last false true [] rfl
    · exact hraised _ (hfail _)
    · exact hraised _ (hstore _)
  · have hread : Goroutine.next cfg id n true true [] (.accept msg) = (n, some (.storing msg)) := by
      simp only [Goroutine.next, if_neg hless, if_neg habove]
    simp only [if_neg hless, if_neg habove]
    refine .more true true [] hread ?_
    split_ifs with hdisk
    · exact hfail n
    · exact hstore n

/-- The two sections of `handleCommit`, the second of which may start a catch-up. -/
theorem handleCommit_next (n : Node) (msg : Message) (disk expired : Bool)
    (replies : List Message) (hless : msg.ballot.less n.log.promised = false) :
    Goroutine.next cfg id n disk expired replies (.commit msg) = (n, some (.following msg)) ∧
      Goroutine.next cfg id n disk expired replies (.following msg) =
        ((n.handleCommit id msg).1, (n.handleCommit id msg).2.2.map .fetching) := by
  have hread : ¬msg.ballot.less n.log.promised = true := by simp [hless]
  refine ⟨by simp only [Goroutine.next, if_neg hread], ?_⟩
  simp only [Goroutine.next, Node.handleCommit, if_neg hread]
  split_ifs <;> rfl

/-- The end of `catchUp`. -/
theorem learned_alone (n : Node) (slots : List ℕ) :
    Alone cfg id n (.learned slots) { n.markCommitted slots with catchingUp := false } := by
  unfold Goroutine.learned
  split_ifs with hslots
  · refine .last true true [] ?_
    simp [Goroutine.next, hslots, Node.markCommitted]
  · exact .more true true [] rfl (.last true true [] rfl)

/-- The loop of `catchUp`, by induction on the slots that are left. Its counter wraps after the last
slot there is, and the loop ends there if the source has nothing for slot 0. -/
theorem learn_alone {entries : List Entry} {last : ℕ} (hlast : last < 2 ^ 64)
    (hzero : Node.chosenEntry entries 0 = none) (fuel slot disk : ℕ) (slots : List ℕ) (n : Node)
    (hfuel : fuel = last + 1 - slot) :
    Alone cfg id n (.learn entries slot last slots)
      { (Node.catchUpLoop entries fuel slot disk n).2.markCommitted
          (slots ++ (Node.catchUpLoop entries fuel slot disk n).1) with catchingUp := false } := by
  induction fuel generalizing slot disk slots n with
  | zero =>
    rw [Goroutine.learn, if_neg (by omega)]
    simpa [Node.catchUpLoop] using learned_alone n slots
  | succ fuel ih =>
    rw [Goroutine.learn, if_pos (by omega)]
    unfold Node.catchUpLoop
    cases hchosen : Node.chosenEntry entries slot with
    | none => simpa using learned_alone n slots
    | some e =>
      set same : Bool := match n.log.entries slot with
        | some l => decide (l.ballot = e.ballot ∧ l.command = e.command)
        | none => false with hsame
      have hcompare : ∀ g, (if same then .learn entries (uint64Succ slot) last (slots ++ [slot])
            else .adopting entries e slot last slots) = g →
          Goroutine.next cfg id n true true [] (.comparing entries e slot last slots) =
            (n, some g) := by
        rintro g rfl
        rfl
      have hrest : ∀ disk n, Alone cfg id n
          (.learn entries (uint64Succ slot) last (slots ++ [slot]))
          { (Node.catchUpLoop entries fuel (slot + 1) disk n).2.markCommitted (slots ++ [slot] ++
              (Node.catchUpLoop entries fuel (slot + 1) disk n).1) with catchingUp := false } := by
        intro disk n
        rcases Nat.lt_or_ge (slot + 1) (2 ^ 64) with hlt | hge
        · rw [uint64Succ_of_lt hlt]
          exact ih (slot + 1) disk (slots ++ [slot]) n (by omega)
        · obtain rfl : fuel = 0 := by omega
          have hwrap : uint64Succ slot = 0 := by
            rw [uint64Succ, show slot + 1 = 2 ^ 64 by omega, Nat.mod_self]
          rw [hwrap, Goroutine.learn, if_pos (Nat.zero_le _), hzero]
          simpa [Node.catchUpLoop] using learned_alone n (slots ++ [slot])
      dsimp only
      split_ifs with hs hdisk
      · refine .more true true [] (hcompare _ (if_pos hs)) ?_
        simpa using hrest disk n
      · refine .more true true [] (hcompare _ (if_neg hs)) (.more false true [] rfl ?_)
        simpa using learned_alone n slots
      · refine .more true true [] (hcompare _ (if_neg hs)) (.more true true [] rfl ?_)
        simpa using hrest (disk - 1) (n.adopt e)

theorem catchUp_alone (n : Node) (f : Node.Fetch) (reply : Option Message) (disk : ℕ)
    (hlast : f.commitIndex < 2 ^ 64) (hzero : ∀ r ∈ reply, Node.chosenEntry r.entries 0 = none) :
    Alone cfg id n (.fetching f) (n.concludeCatchUp f.first f.commitIndex reply disk) := by
  unfold Node.concludeCatchUp
  cases reply with
  | none => exact .more true true [] rfl (.last true true [] rfl)
  | some r =>
    have hreply : Goroutine.next cfg id n true true [r] (.fetching f) =
        (n, some (if r.ok then .learn r.entries f.first f.commitIndex [] else .fetched)) := rfl
    refine .more true true [r] hreply ?_
    cases hok : r.ok with
    | false => exact .last true true [] (by simp [Goroutine.next, hok])
    | true => simpa [hok] using learn_alone hlast (hzero r rfl) _ f.first disk [] n rfl

/-- A round of the apply loop. -/
theorem apply_alone {σ ρ : Type*} {apply : σ → ℕ → Command → σ × ρ} {p : Process σ ρ}
    (hidle : p.applier = .idle) (hn : p.node.applyNext = some n') :
    ∃ acts p', Run (Process.step cfg id apply) always p acts p' ∧ p'.node = n' := by
  unfold Node.applyNext at hn
  dsimp only at hn
  split_ifs at hn with hcommitted
  split at hn
  · cases hn
  rename_i e he
  obtain rfl := Option.some.inj hn
  refine ⟨[.apply, .apply, .apply, .apply], _,
    .cons rfl rfl (.cons rfl rfl (.cons rfl rfl (.cons rfl rfl (.nil _)))), ?_⟩
  by_cases hnoop : e.isNoop = true
  · simp [Process.applyLoop, hidle, hcommitted, he, hnoop]
  · simp [Process.applyLoop, hidle, hcommitted, he, hnoop]

end PaxosPayments.Paxos
