import PaxosPayments.Foundations.Runs
import PaxosPayments.Paxos.Applied
import PaxosPayments.Paxos.Marks

/-!
# The wake-ups of the apply loop

`markCommitted` records its slots under the lock of the node, and then sends on `applyC`, a channel
of one place, without waiting: when a wake-up is already pending, its own is dropped. `runApply`
sleeps until it receives one, and `drainApplicable` then works off slot after slot until the next
one is not committed. Between the check of a slot and the next sleep no lock is held, so a slot may
be marked at any point of it.

Here the two run against each other, one critical section at a time. Entries are stored and slots
are marked at any time and in any order; a slot is stored before it is marked, as `replicate` and
`catchUp` do (`ApplyLoop.step_seen`). The slots are then worked off in order and once, and no
wake-up is lost (`ApplyLoop.in_order`).

The next slot is counted as the source counts it, in 64 bits. `Node.applyNext` counts without end,
which is the same until the counter is at its last value (`ApplyLoop.round_applyNext`). There slot 0
comes next, and the loop begins again if that slot is marked (`ApplyLoop.begins_again`).
-/

namespace PaxosPayments.Paxos

/-- The apply goroutine, before its next step. -/
inductive Worker (ρ : Type*)
  /-- `runApply`, at its select. -/
  | waiting
  /-- `drainApplicable`, about to look whether the next slot is committed. -/
  | checking
  | reading (next : ℕ)
  | applying (next : ℕ) (e : Entry)
  /-- The slot is done but for `appliedIndex`. -/
  | settling (next : ℕ) (e : Entry) (result : Option ρ)
  /-- The result is about to be sent to the call that has waited for it. -/
  | answering (call : ℕ) (result : Option ρ)
  /-- `runApply` has returned. -/
  | stopped
  deriving DecidableEq

/-- What the apply goroutine works on, with the channel that wakes it. -/
structure ApplyLoop (σ ρ : Type*) where
  node : Node
  machine : σ
  /-- The call that waits for a slot. -/
  results : ℕ → Option ℕ
  /-- A wake-up is pending. -/
  applyC : Bool
  /-- How many calls of `markCommitted` are between their marking and their send. -/
  marked : ℕ
  worker : Worker ρ
  /-- The calls of `Apply`, newest first. Nothing reads them. -/
  applyCalls : List (ℕ × Command)
  /-- What the calls of `Propose` have been sent, newest first. -/
  answers : List (ℕ × Option ρ)

namespace ApplyLoop

variable {σ ρ : Type*}

/-- `NewNode` over a log, and `Start`. -/
def init (log : Log) (machine : σ) : ApplyLoop σ ρ :=
  ⟨{ Node.fresh with log := log }, machine, fun _ => none, false, 0, .waiting, [], []⟩

inductive Action
  /-- An entry is accepted, in `handleAccept` or in `replicate`. -/
  | vote (e : Entry)
  /-- An entry is taken over from the leader, in `catchUp`. -/
  | adopt (e : Entry)
  /-- `Propose` registers its call for a slot. -/
  | register (slot call : ℕ)
  /-- `Propose` has failed and deletes the registration. -/
  | forget (slot : ℕ)
  /-- The critical section of `markCommitted`. -/
  | mark (slots : List ℕ)
  /-- The send of `markCommitted`. -/
  | send
  /-- `runApply` receives a wake-up. -/
  | receive
  /-- `runApply` sees that the replica is stopped. -/
  | stop
  /-- The next step of `drainApplicable`. -/
  | drain

/-- The next step of `drainApplicable`, over a state machine that `apply` describes. -/
def drainApplicable (apply : σ → ℕ → Command → σ × ρ) (l : ApplyLoop σ ρ) :
    Option (ApplyLoop σ ρ) :=
  match l.worker with
  | .checking =>
    let next := uint64Succ l.node.appliedIndex
    some { l with worker := if l.node.committed next then .reading next else .waiting }
  | .reading next =>
    match l.node.log.entries next with
    | none => some { l with worker := .waiting }
    | some e => some { l with worker := .applying next e }
  | .applying next e =>
    if e.isNoop then some { l with worker := .settling next e none }
    else
      let (machine, r) := apply l.machine next e.command
      some { l with
        machine := machine
        applyCalls := (next, e.command) :: l.applyCalls
        worker := .settling next e (some r) }
  | .settling next e result =>
    some { l with
      node := { l.node with
        appliedIndex := next
        history := .applied next (if e.isNoop then [] else e.command) :: l.node.history }
      results := Function.update l.results next none
      worker := match l.results next with
        | some k => .answering k result
        | none => .checking }
  | .answering k result => some { l with answers := (k, result) :: l.answers, worker := .checking }
  | .waiting | .stopped => none

def step (apply : σ → ℕ → Command → σ × ρ) (l : ApplyLoop σ ρ) : Action → Option (ApplyLoop σ ρ)
  | .vote e => some { l with node := l.node.vote e }
  | .adopt e => some { l with node := l.node.adopt e }
  | .register slot call =>
    some { l with results := Function.update l.results slot (some call) }
  | .forget slot => some { l with results := Function.update l.results slot none }
  | .mark slots => some { l with node := l.node.markCommitted slots, marked := l.marked + 1 }
  | .send =>
    -- a wake-up that is already pending stays, and this one is dropped
    if l.marked = 0 then none else some { l with marked := l.marked - 1, applyC := true }
  | .receive =>
    match l.worker, l.applyC with
    | .waiting, true => some { l with worker := .checking, applyC := false }
    | _, _ => none
  | .stop =>
    match l.worker with
    | .waiting => some { l with worker := .stopped }
    | _ => none
  | .drain => l.drainApplicable apply

/-- Slots are marked after their entries are stored. -/
def storedFirst (l : ApplyLoop σ ρ) : Action → Bool
  | .mark slots => slots.all fun s => (l.node.log.entries s).isSome
  | _ => true

/-- Slot 0, with which the 64-bit counter would begin again, is not marked. -/
def Action.fromOne : Action → Bool
  | .mark slots => !slots.contains 0
  | _ => true

/-- Slots are stored first, and slot 0 is not marked. -/
def storedFromOne (l : ApplyLoop σ ρ) (a : Action) : Bool := l.storedFirst a && a.fromOne

/-- The call of `Apply` for a slot that does not count as applied yet. -/
def unsettled (l : ApplyLoop σ ρ) : List (ℕ × Command) :=
  match l.worker with
  | .settling next e _ => if e.isNoop then [] else [(next, e.command)]
  | _ => []

/-! ## What holds in every state -/

/-- The slot that the apply goroutine is at is the next one, and committed. -/
def AtNext (l : ApplyLoop σ ρ) : Prop :=
  match l.worker with
  | .reading next | .applying next _ | .settling next _ _ =>
    next = l.node.appliedIndex + 1 ∧ next < 2 ^ 64 ∧ l.node.committed next = true
  | _ => True

structure Orderly (l : ApplyLoop σ ρ) : Prop where
  order : InOrder l.node.appliedIndex l.node.appliedLog
  bound : l.node.appliedIndex < 2 ^ 64
  atNext : l.AtNext
  applyCalls : l.applyCalls = l.unsettled ++ l.node.appliedLog.filter (·.2 ≠ [])
  zero : l.node.committed 0 = false
  stored : ∀ s, l.node.committed s = true → (l.node.log.entries s).isSome = true
  /-- While the next slot is committed, the goroutine does not sleep without a wake-up that is
  pending or about to be sent. -/
  attended : l.worker = .waiting → l.node.committed (uint64Succ l.node.appliedIndex) = true →
    l.applyC = true ∨ 0 < l.marked

variable {apply : σ → ℕ → Command → σ × ρ} {l l' : ApplyLoop σ ρ} {a : Action}

namespace Orderly

theorem init (log : Log) (machine : σ) : Orderly (init log machine : ApplyLoop σ ρ) where
  order := rfl
  bound := Nat.two_pow_pos 64
  atNext := trivial
  applyCalls := rfl
  zero := rfl
  stored s hs := by cases hs
  attended _ hs := by cases hs

/-- An entry is stored or slots are marked. -/
theorem of_node (h : Orderly l) {n : Node} {marked : ℕ} (hsame : l.node.SameApplied n)
    (hkept : ∀ s, l.node.committed s = true → n.committed s = true) (hzero : n.committed 0 = false)
    (hstored : ∀ s, n.committed s = true → (n.log.entries s).isSome = true)
    (hmarked : n.committed = l.node.committed ∧ marked = l.marked ∨ 0 < marked) :
    Orderly { l with node := n, marked := marked } where
  order := by
    rw [hsame.index, hsame.log]
    exact h.order
  bound := hsame.index ▸ h.bound
  atNext := by
    have hat := h.atNext
    unfold AtNext at hat ⊢
    dsimp only
    rw [hsame.index]
    split at hat
    all_goals first | exact trivial | exact ⟨hat.1, hat.2.1, hkept _ hat.2.2⟩
  applyCalls := by
    rw [hsame.log]
    exact h.applyCalls
  zero := hzero
  stored := hstored
  attended hw hs := by
    rcases hmarked with ⟨hcommitted, rfl⟩ | hpos
    · rw [hsame.index, hcommitted] at hs
      exact h.attended hw hs
    · exact .inr hpos

/-- An entry is stored. -/
theorem of_accept (h : Orderly l) {n : Node} {e : Entry} (hsame : l.node.SameApplied n)
    (hcommitted : n.committed = l.node.committed) (hlog : n.log = l.node.log.accept e) :
    Orderly { l with node := n } := by
  refine h.of_node hsame (fun s hs => hcommitted ▸ hs) (hcommitted ▸ h.zero) (fun s hs => ?_)
    (.inl ⟨hcommitted, rfl⟩)
  rw [hlog]
  by_cases he : s = e.slot
  · rw [he, Log.accept_entries_self]
    rfl
  · rw [Log.accept_entries_ne _ _ he]
    exact h.stored s (hcommitted ▸ hs)

theorem mark (h : Orderly l) {slots : List ℕ} (hok : l.storedFromOne (.mark slots) = true) :
    Orderly { l with node := l.node.markCommitted slots, marked := l.marked + 1 } := by
  simp only [storedFromOne, storedFirst, Action.fromOne, Bool.and_eq_true, List.all_eq_true,
    Bool.not_eq_true'] at hok
  obtain ⟨hstored, hzero⟩ := hok
  refine h.of_node (.of_history rfl rfl) (fun s hs => ?_) ?_ (fun s hs => ?_)
    (.inr (Nat.succ_pos _))
  · simp [Node.markCommitted, hs]
  · simp only [Node.markCommitted, h.zero, hzero, Bool.or_self]
  · simp only [Node.markCommitted, Bool.or_eq_true, List.contains_iff_mem] at hs
    rcases hs with hs | hs
    · exact h.stored s hs
    · exact hstored s hs

/-- The goroutine goes to another point at which it holds no slot. -/
theorem of_worker (h : Orderly l) {worker : Worker ρ} {applyC : Bool} {marked : ℕ}
    {results : ℕ → Option ℕ} {answers : List (ℕ × Option ρ)} (hfree : l.unsettled = [])
    (hat : AtNext { l with worker := worker }) (hun : unsettled { l with worker := worker } = [])
    (hatt : worker = .waiting → l.node.committed (uint64Succ l.node.appliedIndex) = true →
      applyC = true ∨ 0 < marked) :
    Orderly { l with
      worker := worker, applyC := applyC, marked := marked, results := results
      answers := answers } where
  order := h.order
  bound := h.bound
  atNext := hat
  applyCalls := by
    have hcalls := h.applyCalls
    rw [hfree] at hcalls
    exact hcalls.trans (congrArg (· ++ _) hun.symm)
  zero := h.zero
  stored := h.stored
  attended := hatt

/-- The check of the next slot. At the last value of the counter the next slot is slot 0, which is
not marked. -/
theorem check (h : Orderly l) (hw : l.worker = .checking) :
    Orderly { l with
      worker := if l.node.committed (uint64Succ l.node.appliedIndex) then
          .reading (uint64Succ l.node.appliedIndex)
        else .waiting } := by
  have hfree : l.unsettled = [] := by rw [unsettled, hw]
  split_ifs with hs
  · have hlt : l.node.appliedIndex + 1 < 2 ^ 64 := by
      by_contra hge
      have hlast : uint64Succ l.node.appliedIndex = 0 := by
        have hmax : l.node.appliedIndex + 1 = 2 ^ 64 := by
          have := h.bound
          omega
        rw [uint64Succ, hmax, Nat.mod_self]
      rw [hlast, h.zero] at hs
      cases hs
    have hnext := uint64Succ_of_lt hlt
    exact h.of_worker hfree ⟨hnext, hnext ▸ hlt, hs⟩ rfl fun hwaiting => by cases hwaiting
  · exact h.of_worker hfree trivial rfl fun _ hs' => absurd hs' hs

/-- The entry of the next slot is there, because the slot is committed. -/
theorem read (h : Orderly l) {next : ℕ} (hw : l.worker = .reading next) :
    ∃ e, l.node.log.entries next = some e ∧ Orderly { l with worker := .applying next e } := by
  have hat := h.atNext
  rw [AtNext, hw] at hat
  obtain ⟨e, he⟩ := Option.isSome_iff_exists.mp (h.stored next hat.2.2)
  refine ⟨e, he, h.of_worker ?_ hat rfl fun hwaiting => by cases hwaiting⟩
  rw [unsettled, hw]

theorem applied (h : Orderly l) {next : ℕ} {e : Entry} (hw : l.worker = .applying next e)
    (machine : σ) (result : Option ρ) :
    Orderly { l with
      machine := machine
      applyCalls := (if e.isNoop then [] else [(next, e.command)]) ++ l.applyCalls
      worker := .settling next e result } where
  order := h.order
  bound := h.bound
  atNext := by
    have hat := h.atNext
    rw [AtNext, hw] at hat
    exact hat
  applyCalls := by
    have hcalls := h.applyCalls
    rw [unsettled, hw] at hcalls
    exact congrArg (_ ++ ·) hcalls
  zero := h.zero
  stored := h.stored
  attended hwaiting := by cases hwaiting

/-- The slot counts as applied. -/
theorem settle (h : Orderly l) {next : ℕ} {e : Entry} {result : Option ρ}
    (hw : l.worker = .settling next e result) {results : ℕ → Option ℕ} {worker : Worker ρ}
    (hworker : worker = .checking ∨ ∃ k, worker = .answering k result) :
    Orderly { l with
      node := { l.node with
        appliedIndex := next
        history := .applied next (if e.isNoop then [] else e.command) :: l.node.history }
      results := results
      worker := worker } := by
  have hat := h.atNext
  rw [AtNext, hw] at hat
  obtain ⟨hnext, hlt, -⟩ := hat
  have hcalls := h.applyCalls
  rw [unsettled, hw] at hcalls
  have hlog : Node.appliedLog { l.node with
      appliedIndex := next
      history := .applied next (if e.isNoop then [] else e.command) :: l.node.history } =
      (next, e.command) :: l.node.appliedLog := by
    rw [Entry.applied_command]
    rfl
  refine ⟨?_, hlt, ?_, ?_, h.zero, h.stored, ?_⟩
  · rw [hlog, hnext]
    exact ⟨e.command, _, rfl, h.order⟩
  · rcases hworker with rfl | ⟨k, rfl⟩ <;> exact trivial
  · rw [hlog]
    have hun : unsettled { l with worker := worker } = [] := by
      rcases hworker with rfl | ⟨k, rfl⟩ <;> rfl
    refine hcalls.trans (Eq.trans ?_ (congrArg (· ++ _) hun.symm))
    cases hc : e.command <;> simp [Entry.isNoop, hc]
  · intro hwaiting
    rcases hworker with rfl | ⟨k, rfl⟩ <;> cases hwaiting

theorem drainApplicable (h : Orderly l) (hs : l.drainApplicable apply = some l') : Orderly l' := by
  unfold ApplyLoop.drainApplicable at hs
  cases hw : l.worker with
  | checking =>
    simp only [hw] at hs
    obtain rfl := Option.some.inj hs
    exact h.check hw
  | reading next =>
    obtain ⟨e, he, h'⟩ := h.read hw
    simp only [hw, he] at hs
    obtain rfl := Option.some.inj hs
    exact h'
  | applying next e =>
    simp only [hw] at hs
    split_ifs at hs with hnoop
    · obtain rfl := Option.some.inj hs
      simpa [hnoop] using h.applied hw l.machine none
    · obtain rfl := Option.some.inj hs
      simpa [hnoop] using h.applied hw _ (some _)
  | settling next e result =>
    simp only [hw] at hs
    obtain rfl := Option.some.inj hs
    refine h.settle hw ?_
    cases l.results next with
    | some k => exact .inr ⟨k, rfl⟩
    | none => exact .inl rfl
  | answering k result =>
    simp only [hw] at hs
    obtain rfl := Option.some.inj hs
    exact h.of_worker (by rw [unsettled, hw]) trivial rfl fun hwaiting => by cases hwaiting
  | waiting | stopped =>
    simp only [hw] at hs
    cases hs

/-- **Every step under the condition keeps this.** -/
theorem step (h : Orderly l) (hok : l.storedFromOne a = true) (hs : l.step apply a = some l') :
    Orderly l' := by
  cases a with
  | vote e =>
    obtain rfl := Option.some.inj hs
    exact h.of_accept (.vote _ e) rfl rfl
  | adopt e =>
    obtain rfl := Option.some.inj hs
    exact h.of_accept (.adopt _ e) rfl rfl
  | register | forget =>
    obtain rfl := Option.some.inj hs
    exact ⟨h.order, h.bound, h.atNext, h.applyCalls, h.zero, h.stored, h.attended⟩
  | mark slots =>
    obtain rfl := Option.some.inj hs
    exact h.mark hok
  | send =>
    simp only [ApplyLoop.step] at hs
    split_ifs at hs
    obtain rfl := Option.some.inj hs
    exact ⟨h.order, h.bound, h.atNext, h.applyCalls, h.zero, h.stored, fun _ _ => .inl rfl⟩
  | receive =>
    simp only [ApplyLoop.step] at hs
    split at hs
    · rename_i hw _
      obtain rfl := Option.some.inj hs
      exact h.of_worker (by rw [unsettled, hw]) trivial rfl fun hwaiting => by cases hwaiting
    · cases hs
  | stop =>
    simp only [ApplyLoop.step] at hs
    split at hs
    · rename_i hw
      obtain rfl := Option.some.inj hs
      exact h.of_worker (by rw [unsettled, hw]) trivial rfl fun hwaiting => by cases hwaiting
    · cases hs
  | drain => exact h.drainApplicable hs

end Orderly

/-- **The slots are worked off in order, and no wake-up is lost**, in every interleaving in which
slots are stored before they are marked and slot 0 is not marked. The slots that are done are 1, 2
and so on up to `appliedIndex`; `Apply` was called once for each command among them that is not
empty, and for that of the slot in progress; and when the goroutine waits, no wake-up is pending and
none is about to be sent, the next slot is not committed. -/
theorem in_order {log : Log} {machine : σ} {acts : List Action}
    (h : Run (step apply) storedFromOne (init log machine) acts l) :
    (l.node.appliedLog.map Prod.fst).reverse = List.range' 1 l.node.appliedIndex ∧
      l.applyCalls = l.unsettled ++ l.node.appliedLog.filter (·.2 ≠ []) ∧
      (l.worker = .waiting → l.applyC = false → l.marked = 0 →
        l.node.committed (uint64Succ l.node.appliedIndex) = false) := by
  have hI : Orderly l :=
    h.invariant (I := Orderly) (fun _ _ _ hI hok hs => hI.step hok hs) (.init log machine)
  refine ⟨hI.order.slots, hI.applyCalls, fun hw hc hm => ?_⟩
  by_contra hs
  rcases hI.attended hw (by simpa using hs) with hpending | hpos
  · rw [hc] at hpending
    cases hpending
  · omega

/-- Slot 2 is stored and marked first. Its wake-up finds that slot 1 is not committed; that of
slot 1 finds both. Slot 2 is a no-op. -/
def outOfOrder : List Action :=
  [.vote ⟨2, ⟨1, "A"⟩, []⟩, .mark [2], .send, .receive, .drain, .adopt ⟨1, ⟨1, "A"⟩, [7]⟩,
    .mark [1], .send, .receive] ++ List.replicate 9 .drain

theorem in_order_two :
    ∃ l : ApplyLoop Unit Command,
      Run (step Process.echo) storedFromOne (init Log.empty ()) outOfOrder l ∧
      l.worker = .waiting ∧ (l.node.appliedLog.map Prod.fst).reverse = List.range' 1 2 ∧
      l.applyCalls = [(1, [7])] ∧ l.node.committed 3 = false := by
  obtain ⟨l, hrun, hend⟩ := Run.exists_of_exec_map (step Process.echo) storedFromOne
    (init Log.empty ()) outOfOrder
    (fun l => ((l.worker, l.applyC, l.marked), l.node.appliedIndex, l.applyCalls))
    ((.waiting, false, 0), 2, [(1, [7])]) (by decide)
  simp only [Prod.mk.injEq] at hend
  obtain ⟨⟨hw, hc, hm⟩, hi, hcalls⟩ := hend
  obtain ⟨hslots, -, hquiet⟩ := in_order hrun
  rw [hi] at hslots
  have hnext := hquiet hw hc hm
  rw [hi] at hnext
  exact ⟨l, hrun, hw, hslots, hcalls, hnext⟩

/-! ## One slot after the other -/

/-- A round of `drainApplicable` over a slot that is committed and stored. -/
theorem round {ok : ApplyLoop σ ρ → Action → Bool} (hok : ∀ l, ok l .drain = true) {e : Entry}
    (hw : l.worker = .checking)
    (hs : l.node.committed (uint64Succ l.node.appliedIndex) = true)
    (he : l.node.log.entries (uint64Succ l.node.appliedIndex) = some e) :
    ∃ l', Run (step apply) ok l (List.replicate 4 .drain) l' ∧
      l'.node = { l.node with
        appliedIndex := uint64Succ l.node.appliedIndex
        history := .applied (uint64Succ l.node.appliedIndex)
          (if e.isNoop then [] else e.command) :: l.node.history } ∧
      l'.results = Function.update l.results (uint64Succ l.node.appliedIndex) none ∧
      (l.results (uint64Succ l.node.appliedIndex) = none → l'.worker = .checking) := by
  set next := uint64Succ l.node.appliedIndex with hnext
  have hcheck : l.step apply .drain = some { l with worker := .reading next } := by
    simp only [step, drainApplicable, hw, ← hnext, hs, if_true]
  have hread : step apply { l with worker := .reading next } .drain =
      some { l with worker := .applying next e } := by
    simp only [step, drainApplicable, he]
  -- the machine, the calls of `Apply` and the result depend on the command, and nothing else does
  obtain ⟨machine, calls, result, happly⟩ : ∃ machine calls result,
      step apply { l with worker := .applying next e } .drain = some { l with
        machine := machine, applyCalls := calls, worker := .settling next e result } := by
    simp only [step, drainApplicable]
    split_ifs
    · exact ⟨_, _, _, rfl⟩
    · exact ⟨_, _, _, rfl⟩
  refine ⟨_, .cons (hok _) hcheck (.cons (hok _) hread (.cons (hok _) happly (.cons (hok _) rfl
    (.nil _)))), rfl, rfl, fun hnone => ?_⟩
  simp only [hnone]

/-- A round that nothing interrupts is that of `Node`. -/
theorem round_applyNext (hw : l.worker = .checking) {n : Node}
    (hn : l.node.applyNext = some n) :
    ∃ l', Run (step apply) always l (List.replicate 4 .drain) l' ∧ l'.node = n := by
  unfold Node.applyNext at hn
  dsimp only at hn
  split_ifs at hn with hs
  split at hn
  · cases hn
  · rename_i e he
    obtain rfl := Option.some.inj hn
    obtain ⟨l', hrun, hnode, -⟩ : ∃ l', Run (step apply) always l _ l' ∧ _ :=
      round (fun _ => rfl) hw hs he
    exact ⟨l', hrun, hnode⟩

/-- The replica works off `k` slots, each stored and marked when its turn comes. -/
theorem rounds (k : ℕ) :
    ∃ (acts : List Action) (l : ApplyLoop Unit Command),
      Run (step Process.echo) storedFirst (init Log.empty ()) acts l ∧ l.worker = .checking ∧
      l.results = (fun _ => none) ∧ l.node.appliedIndex = k % 2 ^ 64 ∧
      (l.node.appliedLog.map Prod.fst).reverse = (List.range' 1 k).map (· % 2 ^ 64) := by
  induction k with
  | zero =>
    exact ⟨[.vote ⟨1, ⟨1, "A"⟩, [7]⟩, .mark [1], .send, .receive], _, .cons rfl rfl (.cons rfl rfl
      (.cons rfl rfl (.cons rfl rfl (.nil _)))), rfl, rfl, rfl, rfl⟩
  | succ k ih =>
    obtain ⟨acts, l, hrun, hw, hresults, hindex, hslots⟩ := ih
    set next := uint64Succ l.node.appliedIndex with hnext
    set e : Entry := ⟨next, ⟨1, "A"⟩, [7]⟩ with he
    have hentry : (l.node.log.accept e).entries next = some e :=
      Log.accept_entries_self l.node.log e
    set n := (l.node.vote e).markCommitted [next] with hn
    have hcommitted : n.committed next = true := by simp [hn, Node.markCommitted]
    have hmark : Run (step Process.echo) storedFirst l [.vote e, .mark [next], .send]
        { l with node := n, applyC := true } := by
      refine .cons rfl rfl (.cons ?_ rfl (.cons rfl rfl (.nil _)))
      simp only [storedFirst, List.all_cons, List.all_nil, Bool.and_true, Node.vote_log, hentry,
        Option.isSome_some]
    obtain ⟨l', hround, hnode, hres, hworker⟩ : ∃ l', Run (step Process.echo) storedFirst
        { l with node := n, applyC := true } _ l' ∧ _ :=
      round (fun _ => rfl) hw hcommitted hentry
    refine ⟨_, l', (hrun.append hmark).append hround, hworker (by rw [hresults]), ?_, ?_, ?_⟩
    · rw [hres, hresults, Function.update_eq_self_iff]
    · rw [hnode]
      change uint64Succ l.node.appliedIndex = _
      rw [hindex, uint64Succ, Nat.mod_add_mod]
    · rw [hnode, List.range'_1_concat, List.map_append, ← hslots]
      change (next :: l.node.appliedLog.map Prod.fst).reverse = _
      rw [List.reverse_cons, hnext, hindex, uint64Succ, Nat.mod_add_mod, Nat.add_comm 1 k]
      rfl

/-- **The loop begins again** after the last slot of 64 bits, if slot 0 is marked then. That slot is
worked off, `appliedIndex` is 0, and slot 1 is next. -/
theorem begins_again :
    ∃ (acts : List Action) (l : ApplyLoop Unit Command),
      Run (step Process.echo) storedFirst (init Log.empty ()) acts l ∧
      l.node.appliedIndex = 0 ∧ 0 ∈ l.node.appliedLog.map Prod.fst ∧
      (l.node.appliedLog.map Prod.fst).reverse ≠ List.range' 1 l.node.appliedIndex := by
  obtain ⟨acts, l, hrun, -, -, hindex, hslots⟩ := rounds (2 ^ 64)
  rw [Nat.mod_self] at hindex
  have hzero : 0 ∈ (l.node.appliedLog.map Prod.fst).reverse := by
    rw [hslots, List.mem_map]
    refine ⟨2 ^ 64, ?_, Nat.mod_self _⟩
    rw [List.mem_range'_1]
    omega
  refine ⟨acts, l, hrun, hindex, List.mem_reverse.mp hzero, fun heq => ?_⟩
  rw [heq, hindex] at hzero
  cases hzero

/-! ## The rest of the process -/

/-- The loop has the slots of the process before it. -/
structure Sees {σ' ρ' : Type*} (l : ApplyLoop σ ρ) (p : Process σ' ρ') : Prop where
  entries : l.node.log.entries = p.node.log.entries
  committed : l.node.committed = p.node.committed
  appliedIndex : l.node.appliedIndex = p.node.appliedIndex

/-- **What the other goroutines do is a store, or the marking of slots that are stored**, as the
loop sees it. -/
theorem step_seen {σ' ρ' : Type*} {cfg : Config} {id : NodeID} {apply' : σ' → ℕ → Command → σ' × ρ'}
    {log : Log} {machine : σ'} {acts : List Process.Action} {p p' : Process σ' ρ'}
    {act : Process.Action}
    (hrun : Run (Process.step cfg id apply') always (Process.init log machine) acts p)
    (hs : p.step cfg id apply' act = some p') (hact : act ≠ .apply) (hl : l.Sees p) :
    ∃ as l', Run (step apply) storedFirst l as l' ∧ l'.Sees p' ∧ l'.worker = l.worker := by
  obtain ⟨stored, htouched⟩ := Process.touched_step hs hact
  have hcommitted := Process.committed_step hs hact
  -- the entry, if one is written
  obtain ⟨as, n, hstore, hentries, hcomm, hindex⟩ : ∃ as n,
      Run (step apply) storedFirst l as { l with node := n } ∧
      n.log.entries = p'.node.log.entries ∧ n.committed = p.node.committed ∧
      n.appliedIndex = p'.node.appliedIndex := by
    have hindex := hl.appliedIndex.trans htouched.appliedIndex.symm
    rcases htouched.entries_eq with heq | ⟨e, -, heq⟩
    · exact ⟨[], l.node, .nil l, hl.entries.trans heq.symm, hl.committed, hindex⟩
    · refine ⟨[.vote e], l.node.vote e, .cons rfl rfl (.nil _), ?_, hl.committed, hindex⟩
      rw [heq, Node.vote_log, Log.accept, Log.accept, hl.entries]
  -- the slots, if any are marked
  by_cases hnone : p.marks act = []
  · rw [hnone, Node.markCommitted_nil] at hcommitted
    exact ⟨as, _, hstore, ⟨hentries, hcomm.trans hcommitted.symm, hindex⟩, rfl⟩
  · have hmark : storedFirst { l with node := n } (.mark (p.marks act)) = true := by
      simp only [storedFirst, List.all_eq_true, hentries]
      exact fun s hmem => htouched.isStored (Process.marks_stored hrun act s hmem)
    refine ⟨as ++ [.mark (p.marks act)],
      { l with node := n.markCommitted (p.marks act), marked := l.marked + 1 },
      hstore.append (.cons hmark rfl (.nil _)), ⟨hentries, ?_, hindex⟩, rfl⟩
    rw [hcommitted]
    simp only [Node.markCommitted, hcomm]

end ApplyLoop

end PaxosPayments.Paxos
