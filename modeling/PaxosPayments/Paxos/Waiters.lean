import PaxosPayments.Foundations.Tables
import PaxosPayments.Paxos.Process
import PaxosPayments.Paxos.Promises
import Mathlib.Data.List.Nodup

/-!
# The result of a proposal

A call of `Propose` waits under its slot, and gets the result of whatever the replica applies there.
It is the result of its own command as long as a slot means one command: when the round of a call
has its majority, the replica has the command of the call for the slot, and a slot that is committed
here is not filled with another command before it is applied (`returned_own`). The 64-bit counter of
the apply loop must not wrap, or old slots would be applied once more.

A leader that is elected again may hand out a slot for which an earlier call is still about to send
its command. Then the second call is told the result of the first (`returned_other`).
-/

namespace PaxosPayments.Paxos

/-! ## What a critical section does to the slots -/

/-- A replica after a section that writes at most `stored`. -/
structure Node.Touched (n : Node) (stored : Option Entry) (n' : Node) : Prop where
  appliedIndex : n'.appliedIndex = n.appliedIndex
  committed : ∀ s, n.committed s = true → n'.committed s = true
  entries : ∀ s, n'.log.entries s = n.log.entries s ∨
    ∃ e, stored = some e ∧ e.slot = s ∧ n'.log.entries s = some e

namespace Node.Touched

variable {n n' : Node} {stored : Option Entry}

theorem of_eq (he : n'.log.entries = n.log.entries) (hc : n'.committed = n.committed)
    (ha : n'.appliedIndex = n.appliedIndex) : n.Touched stored n' :=
  ⟨ha, fun _ => hc ▸ id, fun s => .inl (congrFun he s)⟩

theorem refl (n : Node) : n.Touched stored n := .of_eq rfl rfl rfl

theorem of_accept {e : Entry} (hl : n'.log = n.log.accept e) (hc : n'.committed = n.committed)
    (ha : n'.appliedIndex = n.appliedIndex) : n.Touched (some e) n' := by
  refine ⟨ha, fun _ => hc ▸ id, fun s => ?_⟩
  rw [hl]
  by_cases hs : s = e.slot
  · exact .inr ⟨e, rfl, hs.symm, hs ▸ Log.accept_entries_self n.log e⟩
  · exact .inl (Log.accept_entries_ne n.log e hs)

theorem markCommitted (n : Node) (slots : List ℕ) : n.Touched stored (n.markCommitted slots) :=
  ⟨rfl, fun _ h => by simp [Node.markCommitted, h], fun _ => .inl rfl⟩

end Node.Touched

theorem StepDown.touched (d : StepDown) (n : Node) (disk : Bool) :
    n.Touched none (d.next n disk).1 := by
  cases d with
  | role | compare => exact .of_eq rfl rfl rfl
  | promise =>
    unfold StepDown.next
    split_ifs <;> exact .of_eq rfl rfl rfl

/-- The entry that the next section of `replicate` writes. -/
def Replication.stores (slot : ℕ) (command : Command) : Replication → Option Entry
  | store b => some ⟨slot, b, command⟩
  | _ => none

theorem Replication.touched (cfg : Config) (slot : ℕ) (command : Command) (n : Node) (disk : Bool)
    (replies : List Message) (r : Replication) :
    n.Touched (r.stores slot command) (r.next cfg slot command n disk replies).1 := by
  cases r with
  | check => exact .refl n
  | store b =>
    simp only [Replication.next, stores]
    split_ifs
    · exact .of_accept rfl rfl rfl
    · exact .refl n
  | collect b =>
    simp only [Replication.next]
    split <;> exact .refl n
  | stepDown d =>
    have h := d.touched n disk
    simp only [Replication.next]
    split <;> simp_all [stores]
  | mark => exact .markCommitted n _

/-- `replicate` returns without an error from its last section only. -/
theorem Replication.eq_mark_of_next {cfg : Config} {slot : ℕ} {command : Command} {n : Node}
    {disk : Bool} {replies : List Message} {r : Replication}
    (h : (r.next cfg slot command n disk replies).2 = .returned true) : r = .mark := by
  cases r with
  | mark => rfl
  | check =>
    simp only [Replication.next] at h
    split_ifs at h
    cases h
  | store b =>
    simp only [Replication.next] at h
    split_ifs at h
    cases h
  | collect b =>
    simp only [Replication.next] at h
    split at h
    · cases h
    · dsimp only at h
      split_ifs at h
      cases h
  | stepDown d =>
    simp only [Replication.next] at h
    split at h <;> cases h

/-- The entry that the next section of a goroutine writes. -/
def Goroutine.stores : Goroutine → Option Entry
  | storing msg => some ⟨msg.slot, msg.ballot, msg.command⟩
  | adopting _ e _ _ _ => some e
  | recovery best _ slot r => r.stores slot (Node.recoveredCommand best slot)
  | _ => none

theorem Goroutine.touched (cfg : Config) (id : NodeID) (n : Node) (disk expired : Bool)
    (replies : List Message) (g : Goroutine) :
    n.Touched g.stores (g.next cfg id n disk expired replies).1 := by
  cases g with
  | storing msg | adopting _ e =>
    simp only [Goroutine.next, stores]
    split_ifs
    · exact .of_accept rfl rfl rfl
    · exact .refl n
  | marking slots => exact .markCommitted n slots
  | recovery best maxSlot slot r =>
    have h := r.touched cfg slot (Node.recoveredCommand best slot) n disk replies
    simp only [Goroutine.next]
    split <;> simp_all [stores]
  | stepDown d => exact d.touched n disk
  | promising | accepting | campaigning | lost =>
    simp only [Goroutine.next]
    split_ifs <;> exact .of_eq rfl rfl rfl
  | campaign =>
    simp only [Goroutine.next]
    split_ifs <;> exact .of_eq rfl rfl rfl
  | fetching f =>
    simp only [Goroutine.next]
    split <;> exact .refl n
  | beating b =>
    simp only [Goroutine.next]
    split <;> exact .refl n
  | _ => exact .of_eq rfl rfl rfl

/-! ## What a step does -/

/-- The entry that the next section of a call writes. -/
def Proposal.stores {ρ : Type*} (c : Proposal ρ) : Option Entry :=
  match c.stage with
  | .replicating r => r.stores c.slot c.command
  | _ => none

/-- The round of the call has had its majority. -/
def Proposal.concluded {ρ : Type*} (c : Proposal ρ) : Bool :=
  match c.stage with
  | .waiting | .returned (some _) => true
  | _ => false

namespace Process

variable {σ ρ : Type*}

/-- The ways in which `step` can go. -/
inductive Transition (cfg : Config) (id : NodeID) (apply : σ → ℕ → Command → σ × ρ)
    (p : Process σ ρ) : Action → Process σ ρ → Prop
  | handOut {command : Command} : Transition cfg id apply p (.propose command) (p.handOut command)
  /-- The role keeps `Propose` out. -/
  | refuse {command : Command} : Transition cfg id apply p (.propose command) p
  | proceed {k : ℕ} {disk : Bool} {replies : List Message} {p' : Process σ ρ} (c : Proposal ρ)
      (hc : p.calls[k]? = some c) (hp : p.proceed cfg k c disk replies = some p') :
    Transition cfg id apply p (.proceed k disk replies) p'
  | receive {k : ℕ} (c : Proposal ρ) (hc : p.calls[k]? = some c) (hstage : c.stage = .waiting)
      (result : Option ρ) (hresult : c.channel = some result) :
    Transition cfg id apply p (.receive k) (p.setCall k { c with stage := .returned (some result) })
  | cancel {k : ℕ} (c : Proposal ρ) (hc : p.calls[k]? = some c) (hstage : c.stage = .waiting) :
    Transition cfg id apply p (.cancel k) (p.setCall k { c with stage := .returned none })
  | start {g : Goroutine} (hstarts : g.starts = true) :
    Transition cfg id apply p (.start g) { p with
      goroutines := Function.update p.goroutines p.fresh (some g), fresh := p.fresh + 1 }
  | advance {gid : ℕ} {disk expired : Bool} {replies : List Message} (g : Goroutine)
      (hg : p.goroutines gid = some g) :
    Transition cfg id apply p (.advance gid disk expired replies) { p with
      node := (g.next cfg id p.node disk expired replies).1
      goroutines :=
        Function.update p.goroutines gid (g.next cfg id p.node disk expired replies).2 }
  | apply : Transition cfg id apply p .apply (p.applyLoop apply)

theorem Transition.of_step {cfg : Config} {id : NodeID} {apply : σ → ℕ → Command → σ × ρ}
    {p p' : Process σ ρ} {a : Action} (h : p.step cfg id apply a = some p') :
    Transition cfg id apply p a p' := by
  unfold Process.step at h
  cases a with
  | propose command =>
    dsimp only at h
    obtain rfl := Option.some.inj h
    split_ifs
    · exact .handOut
    · exact .refuse
  | proceed k disk replies =>
    dsimp only at h
    split at h
    · rename_i c hc
      exact .proceed c hc h
    · cases h
  | receive k =>
    dsimp only at h
    split at h
    · rename_i c hc
      split at h
      · rename_i result hstage hresult
        obtain rfl := Option.some.inj h
        exact .receive c hc hstage result hresult
      · cases h
    · cases h
  | cancel k =>
    dsimp only at h
    split at h
    · rename_i c hc
      split at h
      · rename_i hstage
        obtain rfl := Option.some.inj h
        exact .cancel c hc hstage
      · cases h
    · cases h
  | start g =>
    dsimp only at h
    split_ifs at h with hstarts
    obtain rfl := Option.some.inj h
    exact .start hstarts
  | advance gid disk expired replies =>
    dsimp only at h
    split at h
    · rename_i g hg
      obtain rfl := Option.some.inj h
      exact .advance g hg
    · cases h
  | apply =>
    obtain rfl := Option.some.inj h
    exact .apply

/-- What a step does. -/
inductive Outcome (apply : σ → ℕ → Command → σ × ρ) (p : Process σ ρ) :
    Action → Process σ ρ → Prop
  | handOut {command : Command} : Outcome apply p (.propose command) (p.handOut command)
  /-- The role keeps `Propose` out, or a goroutine starts. -/
  | idle {a : Action} (goroutines : ℕ → Option Goroutine) (fresh : ℕ) :
    Outcome apply p a { p with goroutines := goroutines, fresh := fresh }
  /-- A section of a call that does not conclude it. -/
  | proceed {k : ℕ} {disk : Bool} {replies : List Message} (c : Proposal ρ)
      (hc : p.calls[k]? = some c) (n : Node) (hn : p.node.Touched c.stores n)
      (results : ℕ → Option ℕ) (hr : ∀ s j, results s = some j → p.results s = some j)
      (stage : ProposeStage ρ)
      (hopen : ({ c with stage := stage } : Proposal ρ).concluded = false) :
    Outcome apply p (.proceed k disk replies)
      ({ p with node := n, results := results }.setCall k { c with stage := stage })
  /-- `replicate` succeeds. -/
  | conclude {k : ℕ} {disk : Bool} {replies : List Message} (c : Proposal ρ)
      (hc : p.calls[k]? = some c) (hstage : c.stage = .replicating .mark) :
    Outcome apply p (.proceed k disk replies)
      ({ p with node := p.node.markCommitted [c.slot] }.setCall k { c with stage := .waiting })
  | receive {k : ℕ} (c : Proposal ρ) (hc : p.calls[k]? = some c) (hstage : c.stage = .waiting)
      (result : Option ρ) (hresult : c.channel = some result) :
    Outcome apply p (.receive k) (p.setCall k { c with stage := .returned (some result) })
  | cancel {k : ℕ} (c : Proposal ρ) (hc : p.calls[k]? = some c) :
    Outcome apply p (.cancel k) (p.setCall k { c with stage := .returned none })
  | advance {gid : ℕ} {disk expired : Bool} {replies : List Message} (g : Goroutine)
      (hg : p.goroutines gid = some g) (n : Node) (hn : p.node.Touched g.stores n)
      (goroutines : ℕ → Option Goroutine) :
    Outcome apply p (.advance gid disk expired replies)
      { p with node := n, goroutines := goroutines }
  | apply : Outcome apply p .apply (p.applyLoop apply)

variable {cfg : Config} {id : NodeID} {apply : σ → ℕ → Command → σ × ρ} {p p' : Process σ ρ}
  {a : Action}

theorem Outcome.of_proceed {k : ℕ} {c : Proposal ρ} {disk : Bool} {replies : List Message}
    (hc : p.calls[k]? = some c) (h : p.proceed cfg k c disk replies = some p') :
    Outcome apply p (.proceed k disk replies) p' := by
  unfold Process.proceed at h
  cases hstage : c.stage with
  | replicating r =>
    have hn := r.touched cfg c.slot c.command p.node disk replies
    have hstores : c.stores = r.stores c.slot c.command := by rw [Proposal.stores, hstage]
    rw [← hstores] at hn
    simp only [hstage] at h
    split at h
    · rename_i n r' hnext
      rw [hnext] at hn
      obtain rfl := Option.some.inj h
      exact .proceed c hc n hn p.results (fun _ _ => id) _ rfl
    · rename_i n ok hnext
      rw [hnext] at hn
      obtain rfl := Option.some.inj h
      cases ok with
      | false => exact .proceed c hc n hn p.results (fun _ _ => id) _ rfl
      | true =>
        obtain rfl := Replication.eq_mark_of_next (congrArg Prod.snd hnext)
        obtain ⟨rfl, -⟩ := Prod.mk.inj hnext
        exact .conclude c hc hstage
  | failed =>
    simp only [hstage] at h
    obtain rfl := Option.some.inj h
    refine .proceed c hc p.node (.refl _) _ (fun s j hj => ?_) _ rfl
    by_cases hs : s = c.slot
    · simp [hs] at hj
    · rwa [Function.update_of_ne hs] at hj
  | steppingDown d =>
    have hn := d.touched p.node disk
    have hstores : c.stores = none := by rw [Proposal.stores, hstage]
    rw [← hstores] at hn
    simp only [hstage] at h
    split at h <;> rename_i hnext <;> rw [hnext] at hn <;> obtain rfl := Option.some.inj h <;>
      exact .proceed c hc _ hn p.results (fun _ _ => id) _ rfl
  | waiting | returned =>
    simp only [hstage] at h
    cases h

theorem Outcome.of_step (h : p.step cfg id apply a = some p') : Outcome apply p a p' := by
  cases Transition.of_step h with
  | handOut => exact .handOut
  | refuse => exact .idle p.goroutines p.fresh
  | proceed c hc hp => exact .of_proceed hc hp
  | receive c hc hstage result hresult => exact .receive c hc hstage result hresult
  | cancel c hc => exact .cancel c hc
  | start => exact .idle _ _
  | advance g hg => exact .advance g hg _ (g.touched cfg id p.node _ _ _) _
  | apply => exact .apply

/-! ## One command for a slot -/

/-- The command that the replica has accepted for a slot. -/
def logged (p : Process σ ρ) (s : ℕ) : Option Command := (p.node.log.entries s).map (·.command)

def isApplied (p : Process σ ρ) (s : ℕ) : Bool := p.applied.any (·.slot = s)

/-- The command that is being applied for a slot, or is accepted. -/
def pendingAt (p : Process σ ρ) (s : ℕ) : Option Command :=
  match p.applier with
  | .got slot e => if slot = s then some e.command else p.logged s
  | _ => p.logged s

/-- The command that is applied for a slot, or is being applied, or is accepted. -/
def commandAt (p : Process σ ρ) (s : ℕ) : Option Command :=
  match p.applied.find? (·.slot = s) with
  | some x => some x.command
  | none => p.pendingAt s

/-- The entry does not put another command into a slot that is committed and not yet applied. -/
def keepsCommand (p : Process σ ρ) (e : Entry) : Bool :=
  !p.node.committed e.slot || p.isApplied e.slot || p.logged e.slot ∈ [none, some e.command]

/-- A slot means one command: what is proposed is not the no-op, an entry that is stored keeps the
command of a committed slot, a call whose round has its majority finds its command at its slot, and
the apply loop does not look for a slot after the last one there is.
-/
def oneCommand (p : Process σ ρ) : Action → Bool
  | .propose command => command ≠ []
  | .proceed k _ _ =>
    p.calls[k]?.all fun c => c.stores.all p.keepsCommand &&
      match c.stage with
      | .replicating .mark => p.commandAt c.slot = some c.command
      | _ => true
  | .advance gid _ _ _ => (p.goroutines gid).all fun g => g.stores.all p.keepsCommand
  | .apply =>
    match p.applier with
    | .idle => p.node.appliedIndex + 1 < 2 ^ 64
    | _ => true
  | _ => true

/-- What the apply loop is doing. -/
def Applying (p : Process σ ρ) : Prop :=
  match p.applier with
  | .idle => True
  | .found slot | .got slot _ => slot = p.node.appliedIndex + 1
  | .done slot result =>
    slot = p.node.appliedIndex + 1 ∧ ∃ command, ⟨slot, command, result⟩ ∈ p.applied
  | .sending k result =>
    ∃ c command, p.calls[k]? = some c ∧ ⟨c.slot, command, result⟩ ∈ p.applied

/-- What the calls have been told is what was applied at their slots. -/
structure Consistent (p : Process σ ρ) : Prop where
  applying : p.Applying
  slot : ∀ x ∈ p.applied, x.slot ≤ p.node.appliedIndex ∨ ∃ r, p.applier = .done x.slot r
  nodup : (p.applied.map (·.slot)).Nodup
  result : ∀ x ∈ p.applied, x.command ≠ [] → x.result ≠ none
  waiter : ∀ s k, p.results s = some k → ∃ c, p.calls[k]? = some c ∧ c.slot = s
  told : ∀ (k : ℕ) (c : Proposal ρ) (r : Option ρ), p.calls[k]? = some c →
    c.channel = some r ∨ c.stage = .returned (some r) →
    ∃ command, ⟨c.slot, command, r⟩ ∈ p.applied
  nonempty : ∀ c ∈ p.calls, c.command ≠ []
  concluded : ∀ c ∈ p.calls, c.concluded = true →
    p.node.committed c.slot = true ∧ p.commandAt c.slot = some c.command

namespace Consistent

theorem init (log : Log) (machine : σ) : Consistent (init log machine : Process σ ρ) where
  applying := trivial
  slot x hx := by cases hx
  nodup := List.nodup_nil
  result x hx := by cases hx
  waiter s k h := by cases h
  told k c r h := by cases h
  nonempty c h := by cases h
  concluded c h := by cases h

theorem find?_eq_none_iff {s : ℕ} :
    p.applied.find? (·.slot = s) = none ↔ p.isApplied s = false := by
  simp [isApplied]

theorem commandAt_of_not_applied {s : ℕ} (h : p.isApplied s = false) :
    p.commandAt s = p.pendingAt s := by
  rw [commandAt, find?_eq_none_iff.mpr h]

theorem pendingAt_eq_logged (h : ∀ slot e, p.applier ≠ .got slot e) (s : ℕ) :
    p.pendingAt s = p.logged s := by
  unfold pendingAt
  split
  · rename_i hgot
    exact absurd hgot (h _ _)
  · rfl

/-- What was applied at a slot is the command of the slot. -/
theorem commandAt_of_mem (h : Consistent p) {x : Application ρ} (hx : x ∈ p.applied) :
    p.commandAt x.slot = some x.command := by
  have hfind : p.applied.find? (·.slot = x.slot) = some x := by
    refine List.find?_eq_some_iff_append.mpr ?_
    obtain ⟨l, l', hl⟩ := List.append_of_mem hx
    refine ⟨by simp, l, l', hl, fun y hy => ?_⟩
    have hnodup := h.nodup
    rw [hl, List.map_append, List.map_cons, List.nodup_append] at hnodup
    have hne := hnodup.2.2 y.slot (List.mem_map_of_mem hy) x.slot (by simp)
    simpa using hne
  rw [commandAt, hfind]

/-- The command of a committed slot stays when nothing is applied and no entry is stored over it. -/
theorem commandAt_touched {stored : Option Entry} (happlied : p'.applied = p.applied)
    (happlier : p'.applier = p.applier) (hn : p.node.Touched stored p'.node)
    (hkeep : stored.all p.keepsCommand = true) {s : ℕ} {command : Command}
    (hs : p.node.committed s = true) (h : p.commandAt s = some command) :
    p'.commandAt s = some command := by
  cases happ : p.isApplied s with
  | true =>
    unfold commandAt at h ⊢
    rw [happlied]
    cases hfind : p.applied.find? (·.slot = s) with
    | some x =>
      rw [hfind] at h
      exact h
    | none => simp [find?_eq_none_iff.mp hfind] at happ
  | false =>
    have hlogged : p.logged s = some command → p'.logged s = some command := by
      intro hl
      rcases hn.entries s with heq | ⟨e, rfl, rfl, heq⟩
      · rw [logged, heq]
        exact hl
      · simp only [Option.all_some, keepsCommand, hs, happ, hl] at hkeep
        rw [logged, heq]
        simpa [eq_comm] using hkeep
    rw [commandAt_of_not_applied happ] at h
    rw [commandAt_of_not_applied (by rwa [isApplied, happlied])]
    unfold pendingAt at h ⊢
    rw [happlier]
    split at h
    · split_ifs at h ⊢
      · exact h
      · exact hlogged h
    · exact hlogged h

/-- A section that writes at most `stored`. -/
theorem of_touched (h : Consistent p) {stored : Option Entry} {n : Node}
    (hn : p.node.Touched stored n) (hkeep : stored.all p.keepsCommand = true)
    {results : ℕ → Option ℕ} (hr : ∀ s j, results s = some j → p.results s = some j) :
    Consistent { p with node := n, results := results } where
  applying := by
    have := h.applying
    unfold Applying at this ⊢
    simpa only [hn.appliedIndex] using this
  slot x hx := by
    rw [hn.appliedIndex]
    exact h.slot x hx
  nodup := h.nodup
  result := h.result
  waiter s k hk := h.waiter s k (hr s k hk)
  told := h.told
  nonempty := h.nonempty
  concluded c hc hcon := by
    obtain ⟨hs, hcommand⟩ := h.concluded c hc hcon
    refine ⟨hn.committed _ hs, ?_⟩
    refine commandAt_touched ?_ ?_ hn hkeep hs hcommand <;> rfl

/-- Calls that go on: each has its slot as before, and what is new about one of them is true. -/
theorem of_calls (h : Consistent p) {calls : List (Proposal ρ)} {results : ℕ → Option ℕ}
    (hold : ∀ (k : ℕ) (c : Proposal ρ), p.calls[k]? = some c →
      ∃ c', calls[k]? = some c' ∧ c'.slot = c.slot)
    (hwaiter : ∀ s k, results s = some k → ∃ c, calls[k]? = some c ∧ c.slot = s)
    (htold : ∀ c ∈ calls, ∀ r, c.channel = some r ∨ c.stage = .returned (some r) →
      ∃ command, ⟨c.slot, command, r⟩ ∈ p.applied)
    (hnonempty : ∀ c ∈ calls, c.command ≠ [])
    (hconcluded : ∀ c ∈ calls, c.concluded = true →
      p.node.committed c.slot = true ∧ p.commandAt c.slot = some c.command) :
    Consistent { p with calls := calls, results := results } where
  applying := by
    have happ := h.applying
    unfold Applying at happ ⊢
    cases happlier : p.applier with
    | sending k result =>
      simp only [happlier] at happ
      obtain ⟨c, command, hc, hmem⟩ := happ
      obtain ⟨c', hc', hslot⟩ := hold k c hc
      exact ⟨c', command, hc', by rwa [hslot]⟩
    | idle | found | got | done =>
      simp only [happlier] at happ
      exact happ
  slot := h.slot
  nodup := h.nodup
  result := h.result
  waiter := hwaiter
  told k c r hc := htold c (List.mem_of_getElem? hc) r
  nonempty := hnonempty
  concluded := hconcluded

/-- A call enters another stage. -/
theorem setCall (h : Consistent p) {k : ℕ} {c : Proposal ρ} {stage : ProposeStage ρ}
    (hc : p.calls[k]? = some c)
    (htold : ∀ r, stage = .returned (some r) → c.channel = some r)
    (hcon : ({ c with stage := stage } : Proposal ρ).concluded = true →
      p.node.committed c.slot = true ∧ p.commandAt c.slot = some c.command) :
    Consistent (p.setCall k { c with stage := stage }) := by
  have hslots : (p.calls.set k { c with stage := stage }).map (·.slot) = p.calls.map (·.slot) :=
    Table.map_set_eq hc rfl
  have hslot : ∀ (j : ℕ) (d : Proposal ρ), p.calls[j]? = some d →
      ∃ d', (p.calls.set k { c with stage := stage })[j]? = some d' ∧ d'.slot = d.slot :=
    fun _ _ hd => Table.exists_of_map_eq hslots hd
  refine h.of_calls hslot (fun s j hj => ?_) (fun d hd r hr => ?_) (fun d hd => ?_)
    fun d hd hdcon => ?_
  · obtain ⟨d, hd, rfl⟩ := h.waiter s j hj
    exact hslot j d hd
  all_goals rcases List.mem_or_eq_of_mem_set hd with hd | rfl
  · obtain ⟨j, hj⟩ := List.mem_iff_getElem?.mp hd
    exact h.told j d r hj hr
  · exact h.told k c r hc (hr.imp id (htold r) |>.elim .inl .inl)
  · exact h.nonempty d hd
  · exact h.nonempty c (List.mem_of_getElem? hc)
  · exact h.concluded d hd hdcon
  · exact hcon hdcon

/-- A slot is handed out to a new call. -/
theorem handOut (h : Consistent p) {command : Command} (hne : command ≠ []) :
    Consistent (p.handOut command) := by
  have hn : p.node.Touched none { p.node with nextSlot := uint64Succ p.node.nextSlot } :=
    .of_eq rfl rfl rfl
  have h' : Consistent { p with
      node := { p.node with nextSlot := uint64Succ p.node.nextSlot } } :=
    h.of_touched hn rfl fun _ _ => id
  refine h'.of_calls (fun k c hc => ?_) (fun s k hk => ?_) (fun c hc r hr => ?_) (fun c hc => ?_)
    fun c hc hcon => ?_
  · exact ⟨c, Table.getElem?_concat hc _, rfl⟩
  · by_cases hs : s = p.node.nextSlot
    · rw [hs, Function.update_self] at hk
      obtain rfl := Option.some.inj hk
      exact ⟨_, List.getElem?_concat_length, hs.symm⟩
    · rw [Function.update_of_ne hs] at hk
      obtain ⟨c, hc, hslot⟩ := h.waiter s k hk
      exact ⟨c, Table.getElem?_concat hc _, hslot⟩
  all_goals rcases List.mem_append.mp hc with hc | hc
  · obtain ⟨k, hk⟩ := List.mem_iff_getElem?.mp hc
    exact h'.told k c r hk hr
  · obtain rfl := List.mem_singleton.mp hc
    rcases hr with hr | hr <;> cases hr
  · exact h.nonempty c hc
  · obtain rfl := List.mem_singleton.mp hc
    exact hne
  · exact h'.concluded c hc hcon
  · obtain rfl := List.mem_singleton.mp hc
    cases hcon

/-- The apply loop looks for its next entry. -/
theorem of_applier (h : Consistent p) {applier : Applier ρ}
    (hidle : ∀ slot r, p.applier ≠ .done slot r) (happ : Applying { p with applier := applier })
    (hpending : ∀ s, pendingAt { p with applier := applier } s = p.pendingAt s) :
    Consistent { p with applier := applier } where
  applying := happ
  slot x hx := .inl ((h.slot x hx).resolve_right fun ⟨r, hr⟩ => hidle _ r hr)
  nodup := h.nodup
  result := h.result
  waiter := h.waiter
  told := h.told
  nonempty := h.nonempty
  concluded c hc hcon := by
    obtain ⟨hs, hcommand⟩ := h.concluded c hc hcon
    refine ⟨hs, ?_⟩
    rw [← hcommand, commandAt, commandAt, hpending]

/-- An entry is applied. -/
theorem of_applied (h : Consistent p) {slot : ℕ} {e : Entry} (hgot : p.applier = .got slot e)
    (machine : σ) (result : Option ρ) (hresult : e.command ≠ [] → result ≠ none) {n : Node}
    (hn : p.node.Touched none n) :
    Consistent { p with
      node := n
      machine := machine
      applier := .done slot result
      applied := ⟨slot, e.command, result⟩ :: p.applied } := by
  have hnext : slot = p.node.appliedIndex + 1 := by
    have happ := h.applying
    rwa [Applying, hgot] at happ
  have hle : ∀ x ∈ p.applied, x.slot ≤ p.node.appliedIndex := fun x hx =>
    (h.slot x hx).resolve_right fun ⟨r, hr⟩ => by
      rw [hgot] at hr
      cases hr
  have hnew : p.isApplied slot = false := by
    rw [isApplied, List.any_eq_false]
    intro x hx
    have := hle x hx
    simpa using (by omega : x.slot ≠ slot)
  have hcommandAt : ∀ s, commandAt { p with
      node := n
      machine := machine
      applier := .done slot result
      applied := ⟨slot, e.command, result⟩ :: p.applied } s = p.commandAt s := by
    intro s
    by_cases hs : slot = s
    · subst hs
      rw [commandAt_of_not_applied hnew, pendingAt, hgot]
      simp [commandAt]
    · have hlogged : n.log.entries s = p.node.log.entries s :=
        (hn.entries s).resolve_right fun ⟨_, hstored, _⟩ => by cases hstored
      simp only [commandAt, pendingAt, hgot, logged, hlogged, List.find?_cons, hs, decide_false,
        if_false]
  refine ⟨⟨hnext.trans (by rw [hn.appliedIndex]), e.command, List.mem_cons_self⟩,
    fun x hx => ?_, ?_, fun x hx => ?_, h.waiter, fun k c r hc hr => ?_, h.nonempty,
    fun c hc hcon => ?_⟩
  · rcases List.mem_cons.mp hx with rfl | hx
    · exact .inr ⟨result, rfl⟩
    · exact .inl ((hle x hx).trans hn.appliedIndex.ge)
  · refine List.nodup_cons.mpr ⟨fun hmem => ?_, h.nodup⟩
    obtain ⟨x, hx, hslot⟩ := List.mem_map.mp hmem
    have hxle := hle x hx
    dsimp only at hslot
    omega
  · rcases List.mem_cons.mp hx with rfl | hx
    · exact hresult
    · exact h.result x hx
  · obtain ⟨command, hmem⟩ := h.told k c r hc hr
    exact ⟨command, List.mem_cons_of_mem _ hmem⟩
  · obtain ⟨hs, hcommand⟩ := h.concluded c hc hcon
    exact ⟨hn.committed _ hs, (hcommandAt _).trans hcommand⟩

/-- The slot counts as applied, and its waiter is taken. -/
theorem of_done (h : Consistent p) {slot : ℕ} {result : Option ρ}
    (hdone : p.applier = .done slot result) :
    Consistent { p with
      node := { p.node with appliedIndex := slot }
      results := Function.update p.results slot none
      applier := match p.results slot with
        | some k => .sending k result
        | none => .idle } := by
  have happ := h.applying
  rw [Applying, hdone] at happ
  obtain ⟨hnext, command, hmem⟩ := happ
  refine ⟨?_, fun x hx => .inl ?_, h.nodup, h.result, fun s k hk => ?_, h.told, h.nonempty,
    fun c hc hcon => ?_⟩
  · unfold Applying
    cases hres : p.results slot with
    | some k =>
      obtain ⟨c, hc, hcs⟩ := h.waiter slot k hres
      exact ⟨c, command, hc, hcs ▸ hmem⟩
    | none => trivial
  · rcases h.slot x hx with hle | ⟨r, hr⟩
    · change x.slot ≤ slot
      omega
    · rw [hdone] at hr
      cases hr
      exact le_rfl
  · change Function.update p.results slot none s = some k at hk
    by_cases hs : s = slot
    · simp [hs] at hk
    · rw [Function.update_of_ne hs] at hk
      exact h.waiter s k hk
  · obtain ⟨hs, hcommand⟩ := h.concluded c hc hcon
    refine ⟨hs, ?_⟩
    rw [← hcommand, commandAt, commandAt, pendingAt_eq_logged (by cases p.results slot <;> simp),
      pendingAt_eq_logged (by simp [hdone])]
    rfl

/-- The result is sent. -/
theorem of_sending (h : Consistent p) {k : ℕ} {result : Option ρ}
    (hsending : p.applier = .sending k result) :
    Consistent { p with
      calls := p.calls.modify k fun c => { c with channel := some result }
      applier := .idle } := by
  have happ := h.applying
  rw [Applying, hsending] at happ
  obtain ⟨c, command, hc, hmem⟩ := happ
  have hidle : Consistent { p with applier := .idle } := by
    refine h.of_applier (by simp [hsending]) trivial fun s => ?_
    rw [pendingAt_eq_logged (by simp), pendingAt_eq_logged (by simp [hsending])]
    rfl
  have hslots : (p.calls.modify k fun c => { c with channel := some result }).map (·.slot) =
      p.calls.map (·.slot) := by
    refine Table.map_modify_eq ?_ _ _
    exact fun _ => rfl
  have hslot : ∀ (j : ℕ) (d : Proposal ρ), p.calls[j]? = some d →
      ∃ d', (p.calls.modify k fun c => { c with channel := some result })[j]? = some d' ∧
        d'.slot = d.slot := fun _ _ hd => Table.exists_of_map_eq hslots hd
  have hmem' : ∀ d ∈ p.calls.modify k fun c => { c with channel := some result },
      d = { c with channel := some result } ∨ d ∈ p.calls := by
    intro d hd
    rcases Table.mem_modify hd with hd | ⟨c', hc', rfl⟩
    · exact .inr hd
    · obtain rfl := Option.some.inj (hc.symm.trans hc')
      exact .inl rfl
  refine hidle.of_calls hslot (fun s j hj => ?_) (fun d hd r hr => ?_) (fun d hd => ?_)
    fun d hd hcon => ?_
  · obtain ⟨d, hd, rfl⟩ := h.waiter s j hj
    exact hslot j d hd
  all_goals rcases hmem' d hd with rfl | hd
  · rcases hr with hr | hr
    · obtain rfl := Option.some.inj hr
      exact ⟨command, hmem⟩
    · exact h.told k c r hc (.inr hr)
  · obtain ⟨j, hj⟩ := List.mem_iff_getElem?.mp hd
    exact h.told j d r hj hr
  · exact h.nonempty c (List.mem_of_getElem? hc)
  · exact h.nonempty d hd
  · exact hidle.concluded c (List.mem_of_getElem? hc) hcon
  · exact hidle.concluded d hd hcon

theorem applyLoop (h : Consistent p) (hok : p.oneCommand .apply = true) :
    Consistent (p.applyLoop apply) := by
  unfold Process.applyLoop
  cases happ : p.applier with
  | idle =>
    have hlt : p.node.appliedIndex + 1 < 2 ^ 64 := by simpa [oneCommand, happ] using hok
    dsimp only
    split_ifs with hcommitted
    · refine h.of_applier (by simp [happ]) (uint64Succ_of_lt hlt) fun s => ?_
      rw [pendingAt_eq_logged (by simp), pendingAt_eq_logged (by simp [happ])]
      rfl
    · exact h
  | found slot =>
    have hnext := h.applying
    rw [Applying, happ] at hnext
    dsimp only
    cases hentry : p.node.log.entries slot with
    | none =>
      refine h.of_applier (by simp [happ]) trivial fun s => ?_
      rw [pendingAt_eq_logged (by simp), pendingAt_eq_logged (by simp [happ])]
      rfl
    | some e =>
      refine h.of_applier (by simp [happ]) hnext fun s => ?_
      rw [pendingAt_eq_logged (p := p) (by simp [happ]), pendingAt]
      dsimp only
      split_ifs with hs
      · rw [logged, ← hs, hentry]
        rfl
      · rfl
  | got slot e =>
    have htouched : ∀ history, p.node.Touched none { p.node with history := history } :=
      fun _ => .of_eq rfl rfl rfl
    dsimp only
    split_ifs with hnoop
    · have hempty : e.command = [] := by simpa [Entry.isNoop] using hnoop
      have happlied := h.of_applied happ p.machine none (fun hne => absurd hempty hne)
        (htouched (.applied slot [] :: p.node.history))
      rwa [hempty] at happlied
    · exact h.of_applied happ _ (some _) (fun _ => by simp) (htouched _)
  | done slot result => exact h.of_done happ
  | sending k result => exact h.of_sending happ

/-- **Every step under the condition keeps this.** -/
theorem step (h : Consistent p) (hok : p.oneCommand a = true)
    (hs : p.step cfg id apply a = some p') : Consistent p' := by
  cases Outcome.of_step hs with
  | handOut => exact h.handOut (by simpa [oneCommand] using hok)
  | idle => exact ⟨h.applying, h.slot, h.nodup, h.result, h.waiter, h.told, h.nonempty, h.concluded⟩
  | proceed c hc n hn results hr stage hopen =>
    simp only [oneCommand, hc, Option.all_some, Bool.and_eq_true] at hok
    have h' := h.of_touched hn hok.1 hr
    refine h'.setCall hc (fun r hstage => ?_) fun hcon => ?_
    · subst hstage
      cases hopen
    · rw [hopen] at hcon
      cases hcon
  | conclude c hc hstage =>
    simp only [oneCommand, hc, Option.all_some, Bool.and_eq_true, hstage, decide_eq_true_eq] at hok
    have hn : p.node.Touched none (p.node.markCommitted [c.slot]) := .markCommitted _ _
    have h' : Consistent { p with node := p.node.markCommitted [c.slot] } :=
      h.of_touched hn rfl fun _ _ hk => hk
    refine h'.setCall hc (fun r hr => ?_) fun _ => ⟨by simp [Node.markCommitted], ?_⟩
    · cases hr
    · exact hok.2
  | receive c hc hstage result hresult =>
    refine h.setCall hc (fun r hr => ?_) fun _ => h.concluded c (List.mem_of_getElem? hc) ?_
    · cases hr
      exact hresult
    · rw [Proposal.concluded, hstage]
  | cancel c hc =>
    refine h.setCall hc (fun r hr => ?_) fun hcon => ?_
    · cases hr
    · cases hcon
  | advance g hg n hn goroutines =>
    simp only [oneCommand, hg, Option.all_some] at hok
    have h' : Consistent { p with node := n } := h.of_touched hn hok fun _ _ hk => hk
    exact ⟨h'.applying, h'.slot, h'.nodup, h'.result, h'.waiter, h'.told, h'.nonempty, h'.concluded⟩
  | apply => exact h.applyLoop hok

end Consistent

/-- **A successful proposal returns the result of its own command**, in every run of a replica in
which a slot means one command: the command was passed to the state machine at the slot that the
call was given, nothing else was, and the call returns what came of it. -/
theorem returned_own {log : Log} {machine : σ} {acts : List Action}
    (h : Run (step cfg id apply) oneCommand (init log machine) acts p) {k : ℕ} {c : Proposal ρ}
    {r : Option ρ} (hc : p.calls[k]? = some c) (hr : c.stage = .returned (some r)) :
    ∃ v, r = some v ∧ ⟨c.slot, c.command, some v⟩ ∈ p.applied ∧
      ∀ x ∈ p.applied, x.slot = c.slot → x = ⟨c.slot, c.command, some v⟩ := by
  have hI : Consistent p :=
    h.invariant (I := Consistent) (fun _ _ _ hI hok hs => hI.step hok hs) (.init log machine)
  have hcall := List.mem_of_getElem? hc
  obtain ⟨command, hmem⟩ := hI.told k c r hc (.inr hr)
  have hcommand : command = c.command := by
    have hat := (hI.concluded c hcall (by rw [Proposal.concluded, hr])).2
    exact Option.some.inj ((hI.commandAt_of_mem hmem).symm.trans hat)
  subst hcommand
  obtain ⟨v, rfl⟩ := Option.ne_none_iff_exists'.mp (hI.result _ hmem (hI.nonempty c hcall))
  refine ⟨v, rfl, hmem, fun x hx hslot => ?_⟩
  exact List.inj_on_of_nodup_map hI.nodup hx hmem hslot

/-- A state machine whose results are the commands. -/
def echo (_ : Unit) (_ : ℕ) (command : Command) : Unit × Command := ((), command)

/-- `B` answers. -/
def yes : List Message := [{ kind := .accepted, sender := "B", ok := true }]

/-- The goroutine `gid` campaigns and wins with the promise of `B`, which has accepted nothing. -/
def wins (gid : ℕ) : List Action :=
  .start .campaign :: List.replicate 9 (.advance gid true false yes)

/-- The call `k` goes through `replicate`, and `B` accepts. -/
def replicates (k : ℕ) : List Action := List.replicate 4 (.proceed k true yes)

/-- The apply loop applies a slot. -/
def applies : List Action := List.replicate 5 .apply

theorem returned_own_echo :
    ∃ (p : Process Unit Command) (c : Proposal Command),
      Run (step ReplicaGroup.threeReplicas "A" echo) oneCommand (init Log.empty ())
        (wins 0 ++ [.propose [7]] ++ replicates 0 ++ applies ++ [.receive 0]) p ∧
      p.calls[0]? = some c ∧ c.stage = .returned (some (some [7])) ∧
      ⟨c.slot, c.command, some [7]⟩ ∈ p.applied := by
  obtain ⟨p, hrun, hend⟩ := Run.exists_of_exec_map (step ReplicaGroup.threeReplicas "A" echo)
    oneCommand (init Log.empty ())
    (wins 0 ++ [.propose [7]] ++ replicates 0 ++ applies ++ [.receive 0])
    (fun p => p.calls[0]?.map (·.stage)) (some (.returned (some (some [7])))) (by decide +kernel)
  obtain ⟨c, hc, hstage⟩ := Option.map_eq_some_iff.mp hend
  obtain ⟨v, hv, hmem, -⟩ := returned_own hrun hc hstage
  obtain rfl := Option.some.inj hv
  exact ⟨p, c, hrun, hc, hstage, hmem⟩

/-- The replica steps down in the goroutine `gid`, because the last quorum is too long ago. -/
def losesQuorum (gid : ℕ) : List Action :=
  .start .beat :: List.replicate 4 (.advance gid true true [])

/-- **A proposal returns the result of another command.** A call has slot 1 for its command when the
replica steps down, and is elected again before the call goes on. The log is still empty, so the
slot is handed out again. The first command is accepted by a majority and applied, and the second
call, which is registered for the slot now, gets its result; then its own round succeeds too. -/
theorem returned_other :
    ∃ (p : Process Unit Command) (c : Proposal Command),
      Run (step ReplicaGroup.threeReplicas "A" echo) always (init Log.empty ())
        (wins 0 ++ [.propose [7]] ++ losesQuorum 1 ++ wins 2 ++ [.propose [8]] ++ replicates 0 ++
          applies ++ replicates 1 ++ [.receive 1]) p ∧
      p.calls[1]? = some c ∧ c.command = [8] ∧ c.stage = .returned (some (some [7])) ∧
      p.applied = [⟨1, [7], some [7]⟩] := by
  obtain ⟨p, hrun, hend⟩ := Run.exists_of_exec_map (step ReplicaGroup.threeReplicas "A" echo)
    always (init Log.empty ())
    (wins 0 ++ [.propose [7]] ++ losesQuorum 1 ++ wins 2 ++ [.propose [8]] ++ replicates 0 ++
      applies ++ replicates 1 ++ [.receive 1])
    (fun p => (p.calls[1]?.map fun c => (c.command, c.stage), p.applied))
    (some ([8], .returned (some (some [7]))), [⟨1, [7], some [7]⟩]) (by decide +kernel)
  obtain ⟨hcall, happlied⟩ := Prod.mk.inj hend
  obtain ⟨c, hc, hstage⟩ := Option.map_eq_some_iff.mp hcall
  obtain ⟨hcommand, hstage⟩ := Prod.mk.inj hstage
  exact ⟨p, c, hrun, hc, hcommand, hstage, happlied⟩

end Process

end PaxosPayments.Paxos
