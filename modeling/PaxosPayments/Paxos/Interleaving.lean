import PaxosPayments.Paxos.Promises

/-!
# The promise under interleaving

`Group` treats a call of `Handle` as one step. In the source it is not one: the promise is read and
written in separate critical sections of the log, and handlers, campaigns and step-downs run at the
same time. Here one replica is modelled at that granularity. Each goroutine that touches the promise
is a `Thread`, and one step is one critical section of one of them. The other replicas are left
open: any message may arrive at any time and any replies to a campaign may come in.

`Log.Promise` writes whatever it is given. A thread that writes has compared its ballot with a value
it read before, so the promise never goes back in the runs in which the promise has not changed
between the two (`promised_mono`). Nothing in the code ensures it: `promised_goes_back` is a run in
which a lost campaign writes the ballot of a refusal over a higher promise made meanwhile.

A handler that is not interrupted does what `Node.handle` says (`handle_uninterrupted`).
-/

namespace PaxosPayments.Paxos

/-- A goroutine of the replica, at the point before its next critical section. -/
inductive Thread
  /-- `handlePrepare`, about to read the promise. -/
  | prepare (b : Ballot)
  /-- `handlePrepare`, about to promise `b`, which it compared with `seen`. -/
  | preparing (seen b : Ballot)
  /-- `handleAccept`, about to read the promise. -/
  | accept (b : Ballot)
  /-- `handleAccept`, about to promise `b`, which it compared with `seen`. -/
  | accepting (seen b : Ballot)
  /-- `handleAccept`, about to store its entry. -/
  | storing
  /-- `handleCommit`, about to read the promise. -/
  | heartbeat (b : Ballot)
  /-- A handler about to set the role. -/
  | follow
  /-- `campaign`, at its beginning. -/
  | campaign
  /-- `campaign`, waiting for the replies to its probe. -/
  | probing
  /-- `campaign`, about to look whether the replica is still a candidate. -/
  | probed
  /-- `campaign`, about to read the promise to choose its ballot. -/
  | confirmed
  /-- `campaign`, about to promise the ballot it chose above `seen`. -/
  | campaigning (seen next : Ballot)
  /-- `campaign`, waiting for the replies to its PREPARE. -/
  | waiting (next : Ballot)
  /-- `campaign`, about to adopt the ballot of a refusal. -/
  | lost (next highest : Ballot)
  /-- `stepDown`, about to set the role. -/
  | stepDown (seen : Ballot)
  /-- `stepDown`, about to read the promise. -/
  | checking (seen : Ballot)
  /-- `stepDown`, about to promise `seen`, which it compared with `compared`. -/
  | steppingDown (compared seen : Ballot)
  deriving DecidableEq, Repr

namespace Thread

/-- The ballot that the next critical section promises, with the promise it was compared with: for a
lost campaign that is the ballot the campaign promised itself. -/
def writes : Thread → Option (Ballot × Ballot)
  | preparing seen b => some (seen, b)
  | accepting seen b => some (seen, b)
  | campaigning seen next => some (seen, next)
  | lost next highest => some (next, highest)
  | steppingDown compared seen => some (compared, seen)
  | _ => none

/-- The role and the rest of the goroutine after its next critical section, in which `promised` and
`role` are current; `disk` says whether a write in it succeeds, and `replies` are what came in. -/
def next (cfg : Config) (id : NodeID) (promised : Ballot) (role : Role) (disk : Bool)
    (replies : List Message) : Thread → Role × Option Thread
  | prepare b => (role, if b.less promised then none else some (preparing promised b))
  | preparing _ _ => (role, if disk then some follow else none)
  | accept b =>
    (role, if b.less promised then none
      else if promised.less b then some (accepting promised b) else some storing)
  | accepting _ _ => (role, if disk then some storing else none)
  | storing => (role, if disk then some follow else none)
  | heartbeat b => (role, if b.less promised then none else some follow)
  | follow => (.follower, none)
  | campaign => if role = .leader then (role, none) else (.candidate, some probing)
  | probing =>
    (role, some (if replies.length + 1 < cfg.quorum then stepDown Ballot.zero else probed))
  | probed => (role, if role = .candidate then some confirmed else none)
  | confirmed => (role, some (campaigning promised ⟨uint64Succ promised.num, id⟩))
  | campaigning _ next => (role, some (if disk then waiting next else stepDown Ballot.zero))
  | waiting next =>
    if ReplicaGroup.votes replies < cfg.quorum then
      let highest := ReplicaGroup.highest next replies
      (role, some (if next.less highest then lost next highest else stepDown Ballot.zero))
    else (.leader, none)
  | lost _ _ => (role, some (stepDown Ballot.zero))
  | stepDown seen => (.follower, if seen.isZero then none else some (checking seen))
  | checking seen => (role, if promised.less seen then some (steppingDown promised seen) else none)
  | steppingDown _ _ => (role, none)

end Thread

/-- One replica: the promise in its state file and in memory, its role and its goroutines. -/
structure Replica where
  stored : Ballot
  promised : Ballot
  role : Role
  threads : ℕ → Option Thread
  /-- The number of the next goroutine. -/
  fresh : ℕ

namespace Replica

/-- A replica at its first start. -/
def init : Replica := ⟨Ballot.zero, Ballot.zero, .follower, fun _ => none, 0⟩

inductive Action
  /-- A PREPARE, ACCEPT or COMMIT comes in, a campaign starts, or a leader is refused with a higher
  ballot and steps down. -/
  | start (t : Thread)
  /-- The next critical section of a goroutine. -/
  | advance (tid : ℕ) (disk : Bool) (replies : List Message)
  /-- The process dies and is started again; `tid` may name a goroutine whose `Promise` had just
  renamed its temporary file. -/
  | crash (tid : Option ℕ)

/-- The goroutines that the outside can start. -/
def starts : Thread → Bool
  | .prepare _ => true
  | .accept _ => true
  | .heartbeat _ => true
  | .campaign => true
  | .stepDown _ => true
  | _ => false

/-- The ballot a goroutine is about to write, if any. -/
def writing (ρ : Replica) (tid : ℕ) : Option (Ballot × Ballot) := (ρ.threads tid).bind Thread.writes

/-- `Log.Promise`: the file, then the memory. -/
def promise (ρ : Replica) (b : Ballot) : Replica := { ρ with stored := b, promised := b }

/-- A new process: `OpenLog` reads the file, and `NewNode` starts as a follower. -/
def restart (ρ : Replica) : Replica :=
  { ρ with promised := ρ.stored, role := .follower, threads := fun _ => none }

def step (cfg : Config) (id : NodeID) (ρ : Replica) : Action → Option Replica
  | .start t =>
    if starts t then
      some { ρ with threads := Function.update ρ.threads ρ.fresh (some t), fresh := ρ.fresh + 1 }
    else none
  | .advance tid disk replies =>
    match ρ.threads tid with
    | none => none
    | some t =>
      let out := t.next cfg id ρ.promised ρ.role disk replies
      let ρ' := { ρ with role := out.1, threads := Function.update ρ.threads tid out.2 }
      match t.writes with
      | some (_, b) => some (if disk then ρ'.promise b else ρ')
      | none => some ρ'
  | .crash none => some ρ.restart
  | .crash (some tid) =>
    match ρ.writing tid with
    | some (_, b) => some { ρ with stored := b }.restart
    | none => none

/-! ## When the promise does not go back -/

/-- What the goroutine is about to write, if anything, was compared with the promise as it is now.
-/
def undisturbed (ρ : Replica) (tid : ℕ) : Bool :=
  match ρ.writing tid with
  | some (seen, _) => ρ.promised = seen
  | none => true

/-- A ballot is written only while the promise is the one it was compared with, and the number of a
new ballot does not wrap around. -/
def unraced (ρ : Replica) : Action → Bool
  | .start _ => true
  | .advance tid _ _ =>
    ρ.undisturbed tid &&
      (decide (ρ.threads tid ≠ some .confirmed) || decide (ρ.promised.num + 1 < 2 ^ 64))
  | .crash none => true
  | .crash (some tid) => ρ.undisturbed tid

/-- The file holds the promise, and every ballot about to be written is above what it was compared
with. -/
structure Ordered (ρ : Replica) : Prop where
  stored : ρ.stored = ρ.promised
  above : ∀ tid seen b, ρ.writing tid = some (seen, b) → seen ≤ b

variable {cfg : Config} {id : NodeID} {ρ ρ' : Replica}

theorem Ordered.init : Ordered init := ⟨rfl, by simp [Replica.init, writing]⟩

/-- A goroutine that goes on to write has compared its ballot. -/
theorem next_above {t t' : Thread} {promised : Ballot} {role : Role} {disk : Bool}
    {replies : List Message} (hwrap : t = .confirmed → promised.num + 1 < 2 ^ 64)
    (ht : (t.next cfg id promised role disk replies).2 = some t') {seen b : Ballot}
    (hw : t'.writes = some (seen, b)) : seen ≤ b := by
  cases t with
  | prepare c =>
    simp only [Thread.next] at ht
    split_ifs at ht with hlt
    obtain rfl := Option.some.inj ht
    obtain ⟨rfl, rfl⟩ := Prod.mk.inj (Option.some.inj hw)
    simpa using hlt
  | accept c =>
    simp only [Thread.next] at ht
    split_ifs at ht with h₁ h₂ <;> obtain rfl := Option.some.inj ht
    · obtain ⟨rfl, rfl⟩ := Prod.mk.inj (Option.some.inj hw)
      exact ((Ballot.less_iff _ _).mp h₂).le
    · simp [Thread.writes] at hw
  | confirmed =>
    obtain rfl := Option.some.inj ht
    obtain ⟨rfl, rfl⟩ := Prod.mk.inj (Option.some.inj hw)
    refine (Ballot.lt_of_num_lt ?_).le
    rw [uint64Succ_of_lt (hwrap rfl)]
    exact Nat.lt_succ_self _
  | waiting next =>
    simp only [Thread.next] at ht
    split_ifs at ht with h₁ h₂ <;> obtain rfl := Option.some.inj ht
    · obtain ⟨rfl, rfl⟩ := Prod.mk.inj (Option.some.inj hw)
      exact ((Ballot.less_iff _ _).mp h₂).le
    · simp [Thread.writes] at hw
  | checking c =>
    simp only [Thread.next] at ht
    split_ifs at ht with hlt
    obtain rfl := Option.some.inj ht
    obtain ⟨rfl, rfl⟩ := Prod.mk.inj (Option.some.inj hw)
    exact ((Ballot.less_iff _ _).mp hlt).le
  | _ => grind [Thread.next, Thread.writes]

theorem ordered_update {tid : ℕ} {t' : Option Thread} (h : Ordered ρ)
    (ht' : ∀ t, t' = some t → ∀ seen b, t.writes = some (seen, b) → seen ≤ b) {tid' : ℕ}
    {seen b : Ballot}
    (hw : (Function.update ρ.threads tid t' tid').bind Thread.writes = some (seen, b)) :
    seen ≤ b := by
  by_cases htid : tid' = tid
  · rw [htid, Function.update_self] at hw
    obtain ⟨t, ht, hw⟩ := Option.bind_eq_some_iff.mp hw
    exact ht' t ht seen b hw
  · rw [Function.update_of_ne htid] at hw
    exact h.above tid' seen b hw

theorem le_of_undisturbed (h : Ordered ρ) {tid : ℕ} {seen b : Ballot}
    (hok : ρ.undisturbed tid = true) (hw : ρ.writing tid = some (seen, b)) : ρ.promised ≤ b := by
  have hseen : ρ.promised = seen := by simpa [undisturbed, hw] using hok
  rw [hseen]
  exact h.above tid seen b hw

/-- **An unraced step does not lower the promise.** -/
theorem ordered_step (h : Ordered ρ) {a : Action} (hok : ρ.unraced a = true)
    (hs : ρ.step cfg id a = some ρ') : Ordered ρ' ∧ ρ.promised ≤ ρ'.promised := by
  cases a with
  | start t =>
    simp only [step] at hs
    split_ifs at hs with hstart
    obtain rfl := Option.some.inj hs
    refine ⟨⟨h.stored, fun tid' seen b hw => ?_⟩, le_rfl⟩
    refine ordered_update h (fun t' ht' seen b hw => ?_) hw
    obtain rfl := Option.some.inj ht'
    cases t <;> simp [starts, Thread.writes] at hstart hw
  | advance tid disk replies =>
    simp only [step] at hs
    split at hs
    · simp at hs
    rename_i t ht
    simp only [unraced, Bool.and_eq_true] at hok
    have hwrap : t = .confirmed → ρ.promised.num + 1 < 2 ^ 64 := by
      rintro rfl
      simpa [ht] using hok.2
    have habove : ∀ tid' seen b, (Function.update ρ.threads tid
        (t.next cfg id ρ.promised ρ.role disk replies).2 tid').bind Thread.writes = some (seen, b) →
        seen ≤ b :=
      fun _ _ _ hw => ordered_update h (fun _ ht' _ _ hw' => next_above hwrap ht' hw') hw
    split at hs
    · rename_i seen b hw
      have hle := le_of_undisturbed h hok.1 (show ρ.writing tid = some (seen, b) by
        simp [writing, ht, hw])
      obtain rfl := Option.some.inj hs
      split_ifs
      · exact ⟨⟨rfl, habove⟩, hle⟩
      · exact ⟨⟨h.stored, habove⟩, le_rfl⟩
    · obtain rfl := Option.some.inj hs
      exact ⟨⟨h.stored, habove⟩, le_rfl⟩
  | crash tid =>
    cases tid with
    | none =>
      obtain rfl := Option.some.inj hs
      exact ⟨⟨rfl, by simp [restart, writing]⟩, h.stored.ge⟩
    | some tid =>
      simp only [step] at hs
      split at hs
      · rename_i seen b hw
        obtain rfl := Option.some.inj hs
        exact ⟨⟨rfl, by simp [restart, writing]⟩, le_of_undisturbed h hok hw⟩
      · simp at hs

/-- **Promises never go back**: in every run in which no promise changes between the comparison and
the write of a goroutine, the promise of the replica only grows, over crashes too. -/
theorem promised_mono {acts acts' : List Action}
    (hrun : Run (step cfg id) unraced init acts ρ) (hrun' : Run (step cfg id) unraced ρ acts' ρ') :
    ρ.promised ≤ ρ'.promised := by
  have h : Ordered ρ :=
    hrun.invariant (fun _ _ _ h hok hs => (ordered_step h hok hs).1) Ordered.init
  exact hrun'.relates (R := fun ρ ρ' => ρ.promised ≤ ρ'.promised) (fun _ => le_rfl)
    (fun _ _ _ => le_trans) (fun _ _ _ h hok hs => (ordered_step h hok hs).1)
    (fun _ _ _ h hok hs => (ordered_step h hok hs).2) h

/-- `A` campaigns, with the replies to its probe and its PREPARE. -/
def campaigns (probe : List Message) : List Action :=
  [.start .campaign, .advance 0 true [], .advance 0 true probe, .advance 0 true [],
    .advance 0 true [], .advance 0 true []]

/-- A PREPARE for `b` comes in and is answered by the goroutine `tid`. -/
def answersPrepare (tid : ℕ) (b : Ballot) : List Action :=
  [.start (.prepare b), .advance tid true [], .advance tid true [], .advance tid true []]

theorem promised_mono_three :
    ∃ ρ ρ', Run (step ReplicaGroup.threeReplicas "A") unraced init
        (campaigns [{ kind := .ping, sender := "B", ok := true }]) ρ ∧
      Run (step ReplicaGroup.threeReplicas "A") unraced ρ
        (.crash none :: answersPrepare 1 ⟨2, "B"⟩) ρ' ∧
      (ρ.promised, ρ'.promised) = (⟨1, "A"⟩, ⟨2, "B"⟩) ∧ ρ.promised ≤ ρ'.promised := by
  obtain ⟨ρ, hrun, hf⟩ := Run.exists_of_exec_map (step ReplicaGroup.threeReplicas "A") unraced init
    (campaigns [{ kind := .ping, sender := "B", ok := true }])
    (fun ρ => (ρ.promised, (exec (step ReplicaGroup.threeReplicas "A") unraced ρ
      (.crash none :: answersPrepare 1 ⟨2, "B"⟩)).map promised))
    (⟨1, "A"⟩, some ⟨2, "B"⟩) (by decide +kernel)
  simp only [Prod.mk.injEq] at hf
  obtain ⟨ρ', hrun', hf'⟩ := Run.exists_of_exec_map _ _ _ _ _ _ hf.2
  exact ⟨ρ, ρ', hrun, hrun', by rw [hf.1, hf'], promised_mono hrun hrun'⟩

/-- `A` promises `3.C` while its own campaign waits, and then loses the campaign with a refusal that
carries `2.B`: the promise goes back from `3.C` to `2.B`. -/
theorem promised_goes_back :
    ∃ ρ ρ', Run (step ReplicaGroup.threeReplicas "A") always init
        (campaigns [{ kind := .ping, sender := "B", ok := true }] ++
          answersPrepare 1 ⟨3, "C"⟩) ρ ∧
      Run (step ReplicaGroup.threeReplicas "A") always ρ
        [.advance 0 true [{ kind := .promise, sender := "B", ok := false, ballot := ⟨2, "B"⟩ }],
          .advance 0 true []] ρ' ∧
      (ρ.promised, ρ'.promised) = (⟨3, "C"⟩, ⟨2, "B"⟩) ∧ ρ'.promised < ρ.promised := by
  obtain ⟨ρ, hrun, hf⟩ := Run.exists_of_exec_map (step ReplicaGroup.threeReplicas "A") always init
    (campaigns [{ kind := .ping, sender := "B", ok := true }] ++ answersPrepare 1 ⟨3, "C"⟩)
    (fun ρ => (ρ.promised, (exec (step ReplicaGroup.threeReplicas "A") always ρ
      [.advance 0 true [{ kind := .promise, sender := "B", ok := false, ballot := ⟨2, "B"⟩ }],
        .advance 0 true []]).map promised))
    (⟨3, "C"⟩, some ⟨2, "B"⟩) (by decide +kernel)
  simp only [Prod.mk.injEq] at hf
  obtain ⟨ρ', hrun', hf'⟩ := Run.exists_of_exec_map _ _ _ _ _ _ hf.2
  refine ⟨ρ, ρ', hrun, hrun', by rw [hf.1, hf'], ?_⟩
  rw [hf.1, hf']
  decide

/-! ## Handlers without interruption -/

/-- The goroutine that handles a message, as far as it concerns the promise. -/
def handler (msg : Message) : Option Thread :=
  match msg.kind with
  | .prepare => some (.prepare msg.ballot)
  | .accept => some (.accept msg.ballot)
  | .commit => some (.heartbeat msg.ballot)
  | _ => none

/-- The critical sections of a handler, one after the other; `disk` writes succeed. -/
def handlerSteps (n : Node) (msg : Message) (tid disk : ℕ) : List Action :=
  if msg.ballot.less n.log.promised then [.advance tid true []]
  else match msg.kind with
    | .prepare =>
      if disk = 0 then [.advance tid true [], .advance tid false []]
      else [.advance tid true [], .advance tid true [], .advance tid true []]
    | .accept =>
      if n.log.promised.less msg.ballot then
        if disk = 0 then [.advance tid true [], .advance tid false []]
        else if disk = 1 then [.advance tid true [], .advance tid true [], .advance tid false []]
        else
          [.advance tid true [], .advance tid true [], .advance tid true [], .advance tid true []]
      else if disk = 0 then [.advance tid true [], .advance tid false []]
      else [.advance tid true [], .advance tid true [], .advance tid true []]
    | _ => [.advance tid true [], .advance tid true []]

/-- **A handler that is not interrupted does what `Node.handle` says** to the promise and the role.
-/
theorem handle_uninterrupted {n : Node} {msg : Message} {t : Thread} (ht : handler msg = some t)
    (hp : ρ.promised = n.log.promised) (hr : ρ.role = n.role) (disk : ℕ) :
    ∃ ρ', Run (step cfg id) always ρ (.start t :: handlerSteps n msg ρ.fresh disk) ρ' ∧
      (ρ'.promised, ρ'.role) =
        ((n.handle id msg disk).1.log.promised, (n.handle id msg disk).1.role) := by
  refine Run.exists_of_exec_map (step cfg id) always ρ _ (fun ρ => (ρ.promised, ρ.role)) _ ?_
  unfold handler at ht
  unfold handlerSteps Node.handle
  cases hk : msg.kind with
  | prepare =>
    simp only [hk, Option.some.injEq] at ht
    subst ht
    simp only [Node.handlePrepare]
    split_ifs with h₁ h₂ <;>
      simp [exec, always, step, starts, Thread.next, Thread.writes, hp, hr, h₁, promise]
  | accept =>
    simp only [hk, Option.some.injEq] at ht
    subst ht
    simp only [Node.handleAccept]
    by_cases h₁ : msg.ballot.less n.log.promised = true
    · simp [exec, always, step, starts, Thread.next, Thread.writes, hp, hr, h₁]
    · by_cases h₂ : n.log.promised.less msg.ballot = true
      · rcases disk with _ | _ | disk <;>
          simp [exec, always, step, starts, Thread.next, Thread.writes, hp, hr, h₁, h₂, promise]
      · rcases disk with _ | disk <;>
          simp [exec, always, step, starts, Thread.next, Thread.writes, hp, hr, h₁, h₂]
  | commit =>
    simp only [hk, Option.some.injEq] at ht
    subst ht
    simp only [Node.handleCommit]
    split_ifs with h₁ <;>
      simp [exec, always, step, starts, Thread.next, Thread.writes, hp, hr, h₁]
  | _ => simp [hk] at ht

end Replica

end PaxosPayments.Paxos
