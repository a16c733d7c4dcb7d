import PaxosPayments.Foundations.Tables
import PaxosPayments.Paxos.Agreement
import PaxosPayments.Paxos.Calls
import PaxosPayments.Paxos.Threads

/-!
# What is known of a call

The invariant behind the answers of a replicated machine (`Faithful`), under the conditions under
which the replicas agree. Every machine is its applied log. A call has its job, its round and its
slot in the group (`Call.Placed`), and the result that it returns is the one of its command, at the
place of its slot in the log. What is assigned to a slot is a no-op or the command of a call with
this slot, and no two calls have the same slot under the same ballot.
-/

namespace PaxosPayments.Paxos

variable {α σ ρ : Type*}

/-! ## The machine along a log -/

namespace StateMachine

section

variable (sm : StateMachine α σ ρ) (start : σ)

/-- The machine after a log, newest slot first. -/
def after (log : List (ℕ × Command)) : σ := log.foldr (fun x s => (sm.applyEntry s x.2).1) start

/-- The log holds the command `raw` in `slot`, and its result was `res`. -/
def Answered (log : List (ℕ × Command)) (slot : ℕ) (raw : Command) (res : Option ρ) : Prop :=
  ∃ newer older, log = newer ++ (slot, raw) :: older ∧
    (sm.applyEntry (sm.after start older) raw).2 = res

end

variable {sm : StateMachine α σ ρ} {start : σ} {log log' : List (ℕ × Command)} {slot : ℕ}
  {raw : Command} {res : Option ρ}

theorem applyEntry_encode (s : σ) (c : α) :
    sm.applyEntry s (sm.encode c) = ((sm.step s c).1, some (sm.step s c).2) := by
  rw [applyEntry, if_neg (sm.encode_ne_nil c), sm.apply_encode]

namespace Answered

theorem mono (h : sm.Answered start log slot raw res) (hsuffix : log <:+ log') :
    sm.Answered start log' slot raw res := by
  obtain ⟨newer, older, rfl, hres⟩ := h
  obtain ⟨newest, rfl⟩ := hsuffix
  exact ⟨newest ++ newer, older, by simp, hres⟩

theorem mem (h : sm.Answered start log slot raw res) : (slot, raw) ∈ log := by
  obtain ⟨newer, older, rfl, -⟩ := h
  simp

/-- A slot stands at one place of a log, so its result is the one of that place. -/
theorem result {i : ℕ} (h : sm.Answered start log slot raw res) (hlog : InOrder i log)
    {newer older : List (ℕ × Command)} {raw' : Command}
    (heq : log = newer ++ (slot, raw') :: older) :
    raw' = raw ∧ (sm.applyEntry (sm.after start older) raw).2 = res := by
  obtain ⟨newer', older', heq', hres⟩ := h
  have hlength : ((slot, raw') :: older).length = ((slot, raw) :: older').length := by
    rw [(InOrder.of_append (heq ▸ hlog)).length, (InOrder.of_append (heq' ▸ hlog)).length]
  obtain ⟨-, hcons⟩ := List.append_inj' (heq.symm.trans heq') hlength
  obtain ⟨hhead, rfl⟩ := List.cons.inj hcons
  exact ⟨(Prod.mk.inj hhead).2, hres⟩

end Answered

end StateMachine

/-! ## Slots and the commands assigned to them -/

namespace ReplicaGroup

variable {cfg : Config} {g g' : ReplicaGroup}

/-- A new assignment repeats the command of an old one for the slot, fills a gap with a no-op, or is
a proposal. -/
theorem Outcome.forall_assigned (hsafe : Safe cfg g) {act : Action} (ho : Outcome cfg g act g')
    {P : ℕ → Command → Prop} (hnoop : ∀ slot, P slot [])
    (hold : ∀ e ∈ g.assigned, P e.slot e.command)
    (hnew : ∀ id command, act = .propose id command → P (g.nodes id).nextSlot command) :
    ∀ e ∈ g'.assigned, P e.slot e.command := by
  cases ho with
  | @propose id command =>
    intro e he
    rcases List.mem_cons.mp he with rfl | he
    · exact hnew id command rfl
    · exact hold e he
  | @win rid disk first expired r next hr ht hq =>
    intro e he
    rw [winCampaign_assigned] at he
    rcases List.mem_append.mp he with he | he
    · obtain ⟨s, -, -, rfl⟩ := Assign.mem_recovered.mp he
      unfold Node.recoveredCommand
      split
      · rename_i em hem
        obtain ⟨hmem, rfl⟩ := (gather_spec _ _).mem hem
        exact hold em (hsafe.gathered_proposed hr ht em hmem)
      · exact hnoop s
    · exact hold e he
  | commit =>
    rw [continueJob_assigned]
    exact hold
  | _ => exact hold

/-- A round of the apply loop puts one slot on the log of its replica. -/
theorem appliedLog_of_apply {id : NodeID} (hs : g.step cfg (.apply id) = some g') :
    ∃ e, (g.nodes id).log.entries (uint64Succ (g.nodes id).appliedIndex) = some e ∧
      (g'.nodes id).appliedLog =
        (uint64Succ (g.nodes id).appliedIndex, e.command) :: (g.nodes id).appliedLog ∧
      ∀ p ≠ id, (g'.nodes p).appliedLog = (g.nodes p).appliedLog := by
  obtain ⟨n, hn, rfl⟩ : ∃ n, (g.nodes id).applyNext = some n ∧ g.setNode id n = g' := by
    simp only [step] at hs
    split at hs
    · cases hs
    · rename_i n hn
      exact ⟨n, hn, Option.some.inj hs⟩
  obtain ⟨e, he, -, hlog⟩ := Node.applyNext_applied hn
  refine ⟨e, he, ?_, fun p hp => ?_⟩
  · simpa [setNode] using hlog
  · simp [setNode, hp]

/-- **A slot that is chosen already is handed out in vain**: the leader that does so has been
superseded, and nothing can be chosen in the slot under its ballot. -/
theorem Invariant.outOfReach_of_chosen (h : Invariant cfg g) {id : NodeID}
    (hl : (g.nodes id).role = .leader) {b : Ballot} {v w : Command}
    (hch : Voting.ChosenAt cfg.quorums g.record (g.nodes id).nextSlot b v) :
    Voting.OutOfReach cfg.quorums g.record (g.nodes id).nextSlot (g.nodes id).ballot w := by
  have hunused : ∀ w, ⟨(g.nodes id).nextSlot, (g.nodes id).ballot, w⟩ ∉ g.assigned :=
    fun w hw => lt_irrefl _ ((h.assign.leader id hl).slots _ hw rfl)
  obtain ⟨Q, hQ, hvotes⟩ := hch
  refine .of_closed hQ fun a ha => ⟨?_, fun w hw => hunused w (h.safe.sound.votes hw)⟩
  have hreached : b ≤ g.record.bal a := ((h.safe.nodes a).votes ⟨_, b, v⟩ (hvotes a ha)).1
  rcases lt_trichotomy b (g.nodes id).ballot with hlt | heq | hgt
  · -- the slots from `nextSlot` on are free below the leader's ballot, for any command
    have hfree := (h.safe.nodes id).leader hl _ le_rfl (0 :: v)
    exact absurd ⟨Q, hQ, hvotes⟩ (h.safe.sound.not_chosenAt_of_safeBelow hfree (by simp) hlt)
  · exact absurd (h.safe.sound.votes (hvotes a ha)) (heq ▸ hunused v)
  · exact hgt.trans_le hreached

end ReplicaGroup

/-! ## What is known of a call -/

section Tracked

variable (cfg : Config) (sm : StateMachine α σ ρ) (start : σ) (g : ReplicaGroup)

/-- What a call at a stage has in the group: a job, a round, a chosen slot, a result. -/
def Call.Follows (c : Call α ρ) (slot : ℕ) (b : Ballot) : CallStage ρ → Prop
  | .starting jid => ∃ j, g.jobs jid = some j ∧ j.owner = c.node ∧ j.slot = slot ∧ j.under = b ∧
    j.command = sm.encode c.command
  | .sent rid => ∃ r j, g.pending rid = some r ∧ r.task = .accept ⟨slot, b, sm.encode c.command⟩ j
  | .waiting => Voting.ChosenAt cfg.quorums g.record slot b (sm.encode c.command)
  | .failed _ => True
  | .returned _ res => Voting.ChosenAt cfg.quorums g.record slot b (sm.encode c.command) ∧
    sm.Answered start (g.nodes c.node).appliedLog slot (sm.encode c.command) res

/-- A call that was given `slot` under the ballot `b`. -/
structure Call.Placed (c : Call α ρ) (slot : ℕ) (b : Ballot) : Prop where
  peer : c.node ∈ cfg.peers
  stage : c.Follows cfg sm start g slot b c.stage
  /-- What has been sent to the call is the result of some command in its slot. -/
  channel : ∀ res, c.channel = some res →
    ∃ raw, sm.Answered start (g.nodes c.node).appliedLog slot raw res
  assigned : ⟨slot, b, sm.encode c.command⟩ ∈ g.assigned
  /-- Nothing was or will be chosen in the slot below the ballot. -/
  free : ∀ v, Voting.SafeBelow cfg.quorums g.record slot b v

structure Call.Tracked (c : Call α ρ) : Prop where
  refused : c.place = none → ∃ err, c.stage = .failed err
  placed : ∀ slot b, c.place = some (slot, b) → c.Placed cfg sm start g slot b

end Tracked

section Tracked

variable {cfg : Config} {sm : StateMachine α σ ρ} {start : σ} {g g' : ReplicaGroup}
  {c : Call α ρ} {a : ReplicaGroup.Action} {text : String} {slot : ℕ} {b : Ballot}

theorem Call.next_starting {jid : ℕ} (hstage : c.stage = .starting jid)
    (ha : ∀ disk, a ≠ .replicate jid disk) : c.next cfg g a text = .starting jid := by
  unfold next failure
  rw [hstage]
  cases a with
  | replicate k disk =>
    have hk : k ≠ jid := fun he => ha disk (by rw [he])
    simp [hk]
  | _ => rfl

theorem Call.next_sent {rid : ℕ} (hstage : c.stage = .sent rid)
    (ha : ∀ expired disk, a ≠ .conclude rid expired disk) :
    c.next cfg g a text = .sent rid := by
  unfold next failure
  rw [hstage]
  cases a with
  | conclude k expired disk =>
    have hk : k ≠ rid := fun he => ha expired disk (by rw [he])
    simp [hk]
  | _ => rfl

/-- The start of the `replicate` of a call. -/
theorem Call.Follows.replicate {jid disk : ℕ} (hstage : c.stage = .starting jid)
    (h : c.Follows cfg sm start g slot b (.starting jid))
    (hok : g.sameLeadership (.replicate jid disk) = true)
    (hs : g.step cfg (.replicate jid disk) = some g') :
    c.Follows cfg sm start g' slot b (c.next cfg g (.replicate jid disk) text) := by
  obtain ⟨j, hj, hown, rfl, rfl, hcmd⟩ := h
  simp only [ReplicaGroup.step, hj, Option.some.injEq] at hs
  subst hs
  unfold next failure
  rw [hstage]
  by_cases hl : (g.nodes c.node).role = .leader
  · by_cases hd : disk = 0
    · simp [hl, hd, Follows]
    · have hnode : ((g.dropJob jid).nodes j.owner).role = .leader := by
        rw [hown]
        exact hl
      have hballot : (g.nodes j.owner).ballot = j.under :=
        ReplicaGroup.eq_under_of_sameLeadership hok hj hnode
      simp only [hl, hd, ne_eq, not_true_eq_false, if_false, if_true, ReplicaGroup.startReplicate,
        hnode]
      refine ⟨_, j, ReplicaGroup.pending_openRound _ _ _ _, ?_⟩
      rw [← hcmd, ← hballot]
      rfl
  · simp [hl, Follows]

/-- The end of the `replicate` of a call: it fails, or its slot is chosen. -/
theorem Call.Follows.conclude (hi : g.Invariant cfg) {rid disk : ℕ} {expired : Bool}
    (hstage : c.stage = .sent rid) (h : c.Follows cfg sm start g slot b (.sent rid))
    (hgrow : g.Grows g') :
    c.Follows cfg sm start g' slot b (c.next cfg g (.conclude rid expired disk) text) := by
  obtain ⟨r, j, hr, ht⟩ := h
  unfold next failure replicateError
  rw [hstage]
  simp only [if_true, hr, ht]
  cases ReplicaGroup.superseding b r.replies with
  | some m => trivial
  | none =>
    by_cases hq : ReplicaGroup.votes r.replies < cfg.quorum
    · simp [hq, Follows]
    · simp only [hq, if_false]
      exact hgrow.record.chosenAt (hi.safe.chosen hi.form hr ht (not_lt.mp hq))

/-- **A call keeps what it has in the group**, whatever the group does. -/
theorem Call.Placed.advance (hi : g.Invariant cfg) (hn : g.Numbered)
    (hok : g.guarded cfg a = true) (hs : g.step cfg a = some g')
    (h : c.Placed cfg sm start g slot b) :
    (c.advance cfg g a text).Placed cfg sm start g' slot b := by
  have ho := ReplicaGroup.Outcome.of_step hs
  have hgrow := (ReplicaGroup.safe_step hi.safe hi.form hi.assign hok ho).grows
  have hsame : g.sameLeadership a = true := by
    simp only [ReplicaGroup.guarded, ReplicaGroup.guardedSlots, Bool.and_eq_true] at hok
    exact hok.1.1.1.2
  refine ⟨h.peer, ?_, fun res hres => ?_, hgrow.record.proposed h.assigned,
    fun v => hgrow.record.safeBelow (h.free v)⟩
  · change c.Follows cfg sm start g' slot b (c.next cfg g a text)
    have hstage := h.stage
    cases hc : c.stage with
    | starting jid =>
      rw [hc] at hstage
      by_cases ha : ∃ disk, a = .replicate jid disk
      · obtain ⟨disk, rfl⟩ := ha
        exact hstage.replicate hc hsame hs
      · push Not at ha
        rw [next_starting hc ha]
        obtain ⟨j, hj, hrest⟩ := hstage
        rcases ho.jobs_kept hn hj with hj | ⟨disk, he⟩
        · exact ⟨j, hj, hrest⟩
        · exact absurd he (ha disk)
    | sent rid =>
      rw [hc] at hstage
      by_cases ha : ∃ expired disk, a = .conclude rid expired disk
      · obtain ⟨expired, disk, rfl⟩ := ha
        exact hstage.conclude hi hc hgrow
      · push Not at ha
        rw [next_sent hc ha]
        obtain ⟨r, j, hr, ht⟩ := hstage
        obtain ⟨hr, hopen⟩ := ReplicaGroup.pending_eq_some.mp hr
        rcases ho.rounds_kept hn hr with ⟨r', hr', hcont⟩ | ⟨expired, disk, he⟩
        · refine ⟨r', j, ReplicaGroup.pending_eq_some.mpr ⟨hr', ?_⟩, hcont.task.trans ht⟩
          exact hcont.concluded.trans hopen
        · exact absurd he (ha expired disk)
    | waiting =>
      rw [hc] at hstage
      have hnext : c.next cfg g a text = .waiting := by simp [next, failure, hc]
      rw [hnext]
      exact hgrow.record.chosenAt hstage
    | failed err =>
      have hnext : c.next cfg g a text = .failed err := by simp [next, failure, hc]
      rw [hnext]
      trivial
    | returned time res =>
      rw [hc] at hstage
      have hnext : c.next cfg g a text = .returned time res := by simp [next, failure, hc]
      rw [hnext]
      exact ⟨hgrow.record.chosenAt hstage.1, hstage.2.mono (ho.appliedLog_suffix _)⟩
  · obtain ⟨raw, hans⟩ := h.channel res hres
    exact ⟨raw, hans.mono (ho.appliedLog_suffix _)⟩

theorem Call.Tracked.advance (hi : g.Invariant cfg) (hn : g.Numbered)
    (hok : g.guarded cfg a = true) (hs : g.step cfg a = some g')
    (h : c.Tracked cfg sm start g) : (c.advance cfg g a text).Tracked cfg sm start g' := by
  refine ⟨fun hnone => ?_, fun slot b hplace => (h.placed slot b hplace).advance hi hn hok hs⟩
  obtain ⟨err, herr⟩ := h.refused hnone
  exact ⟨err, by simp [Call.advance, Call.next, Call.failure, herr]⟩

theorem Call.advance_of_quiet (ha : (∃ id command, a = .propose id command) ∨ ∃ id, a = .apply id)
    (c : Call α ρ) : c.advance cfg g a text = c := by
  obtain ⟨ticket, stage, channel⟩ := c
  rcases ha with ⟨id, command, rfl⟩ | ⟨id, rfl⟩ <;> cases stage <;> rfl

/-- A step that does not concern calls. -/
theorem Call.Tracked.kept (hi : g.Invariant cfg) (hn : g.Numbered)
    (hok : g.guarded cfg a = true) (hs : g.step cfg a = some g')
    (ha : (∃ id command, a = .propose id command) ∨ ∃ id, a = .apply id)
    (h : c.Tracked cfg sm start g) : c.Tracked cfg sm start g' := by
  have hadvance : (c.advance cfg g a "").Tracked cfg sm start g' := h.advance hi hn hok hs
  rwa [Call.advance_of_quiet ha] at hadvance

end Tracked

/-! ## The commands of calls -/

/-- The ticket is for the slot. -/
def Ticket.IsFor (t : Ticket α) (slot : ℕ) : Prop := ∃ b, t.place = some (slot, b)

/-- The command is a no-op, or that of a call with the slot. -/
def FromCall (encode : α → Command) (tickets : List (Ticket α)) (slot : ℕ) (v : Command) : Prop :=
  v = [] ∨ ∃ t ∈ tickets, t.IsFor slot ∧ encode t.command = v

theorem FromCall.mono {encode : α → Command} {tickets tickets' : List (Ticket α)} {slot : ℕ}
    {v : Command} (hsub : tickets ⊆ tickets') (h : FromCall encode tickets slot v) :
    FromCall encode tickets' slot v :=
  h.imp_right fun ⟨t, ht, hrest⟩ => ⟨t, hsub ht, hrest⟩

namespace Replicated

/-! ## The invariant -/

/-- The invariant: the replicas agree, every machine is its applied log, the calls are what they
have in the group, and what is assigned to a slot is the command of a call. -/
structure Faithful (cfg : Config) (sm : StateMachine α σ ρ) (start : σ) (s : Replicated α σ ρ) :
    Prop where
  group : s.group.Invariant cfg
  ordered : s.group.Ordered
  numbered : s.group.Numbered
  machine : ∀ id, s.machines id = sm.after start (s.group.nodes id).appliedLog
  waiter : ∀ id slot k, s.results id slot = some k →
    ∃ t, (s.calls.map Call.toTicket)[k]? = some t ∧ t.node = id ∧ t.IsFor slot
  call : ∀ c ∈ s.calls, c.Tracked cfg sm start s.group
  clock : ∀ c ∈ s.calls, c.called ≤ s.clock
  origin : ∀ e ∈ s.group.assigned,
    FromCall sm.encode (s.calls.map Call.toTicket) e.slot e.command
  distinct : ∀ (k k' : ℕ) t t' p, (s.calls.map Call.toTicket)[k]? = some t →
    (s.calls.map Call.toTicket)[k']? = some t' → t.place = some p → t'.place = some p → k = k'

section Deliver

variable {s : Replicated α σ ρ} {id : NodeID} {slot : ℕ} {res : Option ρ}

theorem deliver_results {p : NodeID} {slot' k : ℕ}
    (h : (s.deliver id slot res).results p slot' = some k) : s.results p slot' = some k := by
  by_cases hp : p = id
  · subst hp
    by_cases hslot : slot' = slot
    · simp [deliver, hslot] at h
    · simpa [deliver, hslot] using h
  · simpa [deliver, hp] using h

theorem deliver_tickets (s : Replicated α σ ρ) (id : NodeID) (slot : ℕ) (res : Option ρ) :
    (s.deliver id slot res).calls.map Call.toTicket = s.calls.map Call.toTicket := by
  unfold deliver
  cases s.results id slot with
  | none => rfl
  | some k =>
    refine Table.map_modify_eq ?_ _ _
    exact fun _ => rfl

/-- Only the call that has its place in `results` is sent something. -/
theorem mem_deliver {c : Call α ρ} (hc : c ∈ (s.deliver id slot res).calls) :
    c ∈ s.calls ∨ ∃ k c₀, s.results id slot = some k ∧ s.calls[k]? = some c₀ ∧
      c = { c₀ with channel := some res } := by
  unfold deliver at hc
  cases hres : s.results id slot with
  | none => exact Or.inl (by simpa [hres] using hc)
  | some k =>
    simp only [hres] at hc
    exact (Table.mem_modify hc).imp_right fun ⟨c₀, hc₀, heq⟩ => ⟨k, c₀, rfl, hc₀, heq⟩

end Deliver

namespace Faithful

variable {cfg : Config} {sm : StateMachine α σ ρ} {start : σ} {s s' : Replicated α σ ρ}
  {g : ReplicaGroup} {a : ReplicaGroup.Action} {text : String} {id : NodeID} {k : ℕ}
  {c : Call α ρ}

theorem init (cfg : Config) (sm : StateMachine α σ ρ) (start : σ) :
    Faithful cfg sm start (Replicated.init start) where
  group := .init cfg
  ordered := .start
  numbered := .init
  machine _ := rfl
  waiter _ _ _ h := by simp [Replicated.init] at h
  call _ h := by simp [Replicated.init] at h
  clock _ h := by simp [Replicated.init] at h
  origin _ h := by simp [Replicated.init, ReplicaGroup.init] at h
  distinct _ _ _ _ _ h := by simp [Replicated.init] at h

theorem tick (h : Faithful cfg sm start s) : Faithful cfg sm start s.tick :=
  { h with clock := fun c hc => (h.clock c hc).trans (Nat.le_succ _) }

/-- The logs that two replicas have applied are parts of one. -/
theorem suffix (h : Faithful cfg sm start s) {p q : NodeID}
    (hle : (s.group.nodes p).appliedIndex ≤ (s.group.nodes q).appliedIndex) :
    (s.group.nodes p).appliedLog <:+ (s.group.nodes q).appliedLog := by
  refine (h.ordered p).suffix (h.ordered q) hle fun slot raw raw' hp hq => ?_
  obtain ⟨b, hb⟩ := (h.group.safe.nodes p).applied slot raw (Node.mem_appliedLog.mp hp)
  obtain ⟨b', hb'⟩ := (h.group.safe.nodes q).applied slot raw' (Node.mem_appliedLog.mp hq)
  exact h.group.safe.sound.chosen_agree hb hb'

/-! ### Steps that add no call -/

/-- What is left to be shown of a step after which the calls have the same tickets. -/
theorem next (h : Faithful cfg sm start s) (hgroup : s'.group.Invariant cfg)
    (hordered : s'.group.Ordered) (hnumbered : s'.group.Numbered)
    (hassigned : ∀ e ∈ s'.group.assigned,
      FromCall sm.encode (s.calls.map Call.toTicket) e.slot e.command)
    (hmachine : ∀ id, s'.machines id = sm.after start (s'.group.nodes id).appliedLog)
    (hresults : ∀ id slot k, s'.results id slot = some k → s.results id slot = some k)
    (hcall : ∀ c ∈ s'.calls, c.Tracked cfg sm start s'.group)
    (htickets : s'.calls.map Call.toTicket = s.calls.map Call.toTicket)
    (hclock : s'.clock = s.clock) : Faithful cfg sm start s' where
  group := hgroup
  ordered := hordered
  numbered := hnumbered
  machine := hmachine
  waiter id slot k hk := by
    rw [htickets]
    exact h.waiter id slot k (hresults id slot k hk)
  call := hcall
  clock c hc := by
    obtain ⟨c₀, hc₀, heq⟩ := List.mem_map.mp (htickets ▸ List.mem_map_of_mem hc)
    rw [hclock, ← heq]
    exact h.clock c₀ hc₀
  origin := by
    rw [htickets]
    exact hassigned
  distinct := by
    rw [htickets]
    exact h.distinct

theorem origin_kept (h : Faithful cfg sm start s) (ho : ReplicaGroup.Outcome cfg s.group a g)
    (ha : ∀ id command, a ≠ .propose id command) :
    ∀ e ∈ g.assigned, FromCall sm.encode (s.calls.map Call.toTicket) e.slot e.command :=
  ho.forall_assigned h.group.safe (fun _ => Or.inl rfl) h.origin
    fun id command he => absurd he (ha id command)

theorem proceed (h : Faithful cfg sm start s) (hok : s.group.guarded cfg a = true)
    (hs : s.group.step cfg a = some g) (hpropose : ∀ id command, a ≠ .propose id command)
    (happly : ∀ p, a ≠ .apply p) : Faithful cfg sm start (s.proceed cfg a text g) := by
  have ho := ReplicaGroup.Outcome.of_step hs
  refine h.next (h.group.step hok hs) (h.ordered.next h.group.applied_lt ho) (h.numbered.step ho)
    (h.origin_kept ho hpropose) (fun id => ?_) (fun id slot k hk => ?_) (fun c hc => ?_) ?_ rfl
  · have hsame := (ho.applied id).resolve_right fun hn => happly id hn.1
    exact (h.machine id).trans (by rw [Replicated.proceed, hsame.log])
  · simp only [Replicated.proceed] at hk
    split_ifs at hk
    exact hk
  · obtain ⟨c₀, hc₀, rfl⟩ := List.mem_map.mp hc
    exact (h.call c₀ hc₀).advance h.group h.numbered hok hs
  · rw [Replicated.proceed, List.map_map]
    rfl

/-- A round of the apply loop: the machine takes the command, and its result reaches a call with
this slot, if one has its place there. -/
theorem apply (h : Faithful cfg sm start s) (hok : s.group.guarded cfg (.apply id) = true)
    (hs : s.group.step cfg (.apply id) = some g) :
    Faithful cfg sm start (s.apply sm id g) := by
  have ho := ReplicaGroup.Outcome.of_step hs
  have hcalls : ∀ c ∈ s.calls, c.Tracked cfg sm start g := fun c hc =>
    (h.call c hc).kept h.group h.numbered hok hs (Or.inr ⟨id, rfl⟩)
  obtain ⟨e, he, hlog, hothers⟩ := ReplicaGroup.appliedLog_of_apply hs
  unfold Replicated.apply
  simp only [he]
  refine h.next (h.group.step hok hs) (h.ordered.next h.group.applied_lt ho) (h.numbered.step ho)
    (h.origin_kept ho (by simp)) (fun p => ?_) (fun p slot k hk => ?_) (fun c hc => ?_) ?_ rfl
  · by_cases hp : p = id
    · subst hp
      simp only [Replicated.deliver, Function.update_self]
      rw [hlog, h.machine p]
      rfl
    · simp only [Replicated.deliver, Function.update_of_ne hp]
      rw [h.machine p, hothers p hp]
  · have hold := deliver_results hk
    exact hold
  · rcases mem_deliver hc with hc | ⟨k, c₀, hk, hc₀, rfl⟩
    · exact hcalls c hc
    · have htracked := hcalls c₀ (List.mem_of_getElem? hc₀)
      obtain ⟨t, ht, rfl, b, hplace⟩ := h.waiter _ _ k hk
      rw [List.getElem?_map, hc₀, Option.map_some, Option.some.injEq] at ht
      subst ht
      refine ⟨htracked.refused, fun slot' b' hplace' => ?_⟩
      have hp := htracked.placed slot' b' hplace'
      refine ⟨hp.peer, hp.stage, fun res hres => ⟨e.command, ?_⟩, hp.assigned, hp.free⟩
      obtain ⟨rfl, rfl⟩ := Prod.mk.inj (Option.some.inj (hplace.symm.trans hplace'))
      obtain rfl := Option.some.inj hres
      refine ⟨[], (s.group.nodes c₀.node).appliedLog, hlog, ?_⟩
      rw [h.machine]
  · exact deliver_tickets _ _ _ _

/-! ### Calls that end -/

/-- The command that is applied in the slot of a call that waits is its own. -/
theorem own (h : Faithful cfg sm start s) (hc : c ∈ s.calls) (hstage : c.stage = .waiting)
    {res : Option ρ} (hres : c.channel = some res) {slot : ℕ} {b : Ballot}
    (hplace : c.place = some (slot, b)) :
    Voting.ChosenAt cfg.quorums s.group.record slot b (sm.encode c.command) ∧
      sm.Answered start (s.group.nodes c.node).appliedLog slot (sm.encode c.command) res := by
  have hp := (h.call c hc).placed slot b hplace
  have hch : Voting.ChosenAt cfg.quorums s.group.record slot b (sm.encode c.command) := by
    have hfollows := hp.stage
    rwa [hstage] at hfollows
  obtain ⟨raw, hans⟩ := hp.channel res hres
  obtain ⟨b', hb'⟩ :=
    (h.group.safe.nodes c.node).applied slot raw (Node.mem_appliedLog.mp hans.mem)
  obtain rfl := h.group.safe.sound.chosen_agree hb' hch
  exact ⟨hch, hans⟩

theorem finish (h : Faithful cfg sm start s) (hk : s.calls[k]? = some c)
    (hstage : c.stage = .waiting) {stage : CallStage ρ}
    (hfollows : ∀ slot b, c.place = some (slot, b) → c.Follows cfg sm start s.group slot b stage) :
    Faithful cfg sm start (s.finish k c stage) := by
  have hc := h.call c (List.mem_of_getElem? hk)
  refine h.next h.group h.ordered h.numbered h.origin h.machine (fun _ _ _ => id)
    (fun c' hc' => ?_) ?_ rfl
  · rcases List.mem_or_eq_of_mem_set hc' with hc' | rfl
    · exact h.call c' hc'
    · refine ⟨fun hnone => ?_, fun slot b hplace => ?_⟩
      · obtain ⟨err, herr⟩ := hc.refused hnone
        rw [hstage] at herr
        cases herr
      · have hp := hc.placed slot b hplace
        exact ⟨hp.peer, hfollows slot b hplace, hp.channel, hp.assigned, hp.free⟩
  · exact Table.map_set_eq hk rfl

/-! ### Proposals -/

/-- What is left to be shown of a step that adds a call. -/
theorem addCall (h : Faithful cfg sm start s) (hgroup : g.Invariant cfg) (hordered : g.Ordered)
    (hnumbered : g.Numbered) {results : NodeID → ℕ → Option ℕ}
    {new : Call α ρ} (hcalled : new.called = s.clock)
    (hlog : ∀ id, (g.nodes id).appliedLog = (s.group.nodes id).appliedLog)
    (hresults : ∀ id slot k, results id slot = some k →
      s.results id slot = some k ∨ k = s.calls.length ∧ new.node = id ∧ new.IsFor slot)
    (hcalls : ∀ c ∈ s.calls, c.Tracked cfg sm start g) (hnew : new.Tracked cfg sm start g)
    (hassigned : ∀ e ∈ g.assigned,
      FromCall sm.encode (s.calls.map Call.toTicket ++ [new.toTicket]) e.slot e.command)
    (hfresh : ∀ t ∈ s.calls.map Call.toTicket, ∀ p, new.place = some p → t.place ≠ some p) :
    Faithful cfg sm start
      { s with group := g, results := results, calls := s.calls ++ [new] } := by
  have htickets : (s.calls ++ [new]).map Call.toTicket =
      s.calls.map Call.toTicket ++ [new.toTicket] := by rw [List.map_append, List.map_singleton]
  refine ⟨hgroup, hordered, hnumbered, fun id => ?_, fun id slot k hk => ?_,
    List.forall_mem_append.mpr ⟨hcalls, List.forall_mem_singleton.mpr hnew⟩,
    List.forall_mem_append.mpr ⟨h.clock, List.forall_mem_singleton.mpr hcalled.le⟩, ?_, ?_⟩
  · exact (h.machine id).trans (by rw [hlog])
  · rw [htickets]
    rcases hresults id slot k hk with hk | ⟨rfl, hrest⟩
    · obtain ⟨t, ht, hrest⟩ := h.waiter id slot k hk
      exact ⟨t, Table.getElem?_concat ht _, hrest⟩
    · refine ⟨new.toTicket, Table.getElem?_concat_eq_some.mpr (Or.inr ⟨?_, rfl⟩), hrest⟩
      rw [List.length_map]
  · rw [htickets]
    exact hassigned
  · intro k k' t t' p ht ht' hp hp'
    rw [htickets] at ht ht'
    rcases Table.getElem?_concat_eq_some.mp ht with ht | ⟨rfl, rfl⟩ <;>
      rcases Table.getElem?_concat_eq_some.mp ht' with ht' | ⟨rfl, rfl⟩
    · exact h.distinct k k' t t' p ht ht' hp hp'
    · exact absurd hp (hfresh t (List.mem_of_getElem? ht) p hp')
    · exact absurd hp' (hfresh t' (List.mem_of_getElem? ht') p hp)
    · rfl

/-- A call that is refused at once. -/
theorem refuse (h : Faithful cfg sm start s) (command : α) (err : ProposeError) :
    Faithful cfg sm start { s with
      calls := s.calls ++ [⟨⟨id, command, s.clock, none⟩, .failed err, none⟩] } := by
  exact h.addCall h.group h.ordered h.numbered rfl (fun _ => rfl) (fun _ _ _ => Or.inl) h.call
    ⟨fun _ => ⟨err, rfl⟩, by simp⟩
    (fun e he => (h.origin e he).mono (List.subset_append_left _ _)) (by simp)

/-- A proposal: the call has a job of its own, a free slot, and its place in `results`. -/
theorem handOut (h : Faithful cfg sm start s) {command : α}
    (hok : s.group.guarded cfg (.propose id (sm.encode command)) = true)
    (hs : s.group.propose cfg id (sm.encode command) = some g) :
    Faithful cfg sm start { s with
      group := g
      results := Function.update s.results id
        (Function.update (s.results id) (s.group.nodes id).nextSlot (some s.calls.length))
      calls := s.calls ++ [⟨⟨id, command, s.clock,
        some ((s.group.nodes id).nextSlot, (s.group.nodes id).ballot)⟩,
        .starting s.group.fresh, none⟩] } := by
  have hstep : s.group.step cfg (.propose id (sm.encode command)) = some g := hs
  have ho := ReplicaGroup.Outcome.of_step hstep
  have hgrow := (ReplicaGroup.safe_step h.group.safe h.group.form h.group.assign hok ho).grows
  unfold ReplicaGroup.propose at hs
  dsimp only at hs
  split_ifs at hs with hrefuse
  push Not at hrefuse
  obtain ⟨hpeer, hl⟩ := hrefuse
  set n := s.group.nodes id
  have hassigned : ⟨n.nextSlot, n.ballot, sm.encode command⟩ ∈ g.assigned := by
    rw [← Option.some.inj hs]
    exact List.mem_cons_self
  have hjob : g.jobs s.group.fresh =
      some ⟨id, .propose, n.nextSlot, sm.encode command, n.ballot⟩ := by
    rw [← Option.some.inj hs]
    simp [ReplicaGroup.addJob, ReplicaGroup.assign, ReplicaGroup.setNode]
  refine h.addCall (h.group.step hok hstep) (h.ordered.next h.group.applied_lt ho)
    (h.numbered.step ho) rfl (fun p => ?_) (fun p slot k hk => ?_)
    (fun c hc => (h.call c hc).kept h.group h.numbered hok hstep (Or.inl ⟨id, _, rfl⟩))
    ⟨by simp, fun slot b hplace => ?_⟩ ?_ (fun t ht p hp => ?_)
  · exact ((ho.applied p).resolve_right fun hact => by cases hact.1).log
  · by_cases hp : p = id
    · subst hp
      by_cases hslot : slot = n.nextSlot
      · subst hslot
        simp only [Function.update_self, Option.some.injEq] at hk
        exact Or.inr ⟨hk.symm, rfl, n.ballot, rfl⟩
      · simp only [Function.update_self, Function.update_of_ne hslot] at hk
        exact Or.inl hk
    · simp only [Function.update_of_ne hp] at hk
      exact Or.inl hk
  · obtain ⟨rfl, rfl⟩ := Prod.mk.inj (Option.some.inj hplace)
    exact ⟨hpeer, ⟨_, hjob, rfl, rfl, rfl, rfl⟩, by simp, hassigned,
      fun v => hgrow.record.safeBelow ((h.group.safe.nodes id).leader hl _ le_rfl v)⟩
  · refine ho.forall_assigned h.group.safe (P := FromCall sm.encode _) (fun _ => Or.inl rfl)
      (fun e he => (h.origin e he).mono (List.subset_append_left _ _)) fun id' command' he => ?_
    obtain ⟨rfl, rfl⟩ := ReplicaGroup.Action.propose.inj he
    exact Or.inr ⟨_, List.mem_concat_self, ⟨n.ballot, rfl⟩, rfl⟩
  · -- no earlier call has the slot under this ballot
    obtain rfl := Option.some.inj hp
    obtain ⟨c, hc, rfl⟩ := List.mem_map.mp ht
    intro hplace
    have hmem := ((h.call c hc).placed _ _ hplace).assigned
    exact lt_irrefl _ ((h.group.assign.leader id hl).slots _ hmem rfl)

theorem propose (h : Faithful cfg sm start s) {command : α}
    (hok : s.group.guarded cfg (.propose id (sm.encode command)) = true) :
    Faithful cfg sm start (s.propose cfg sm id command) := by
  unfold Replicated.propose
  split
  · exact h.refuse command _
  · rename_i g hg
    exact h.handOut hok hg

theorem follow (h : Faithful cfg sm start s) (hok : s.group.guarded cfg a = true)
    (hs : s.group.step cfg a = some g) (hf : s.follow cfg sm a text g = some s') :
    Faithful cfg sm start s' := by
  unfold Replicated.follow at hf
  split at hf
  · cases hf
  · obtain rfl := Option.some.inj hf
    exact h.apply hok hs
  · rename_i hpropose happly
    obtain rfl := Option.some.inj hf
    exact h.proceed hok hs hpropose happly

end Faithful

/-- The steps of the group are those under which the replicas agree. -/
def agreeing (cfg : Config) (sm : StateMachine α σ ρ) (s : Replicated α σ ρ) : Action α → Bool
  | .propose id c => s.group.guarded cfg (.propose id (sm.encode c))
  | .group a _ => s.group.guarded cfg a
  | _ => true

section

variable {cfg : Config} {sm : StateMachine α σ ρ} {s s' : Replicated α σ ρ} {k : ℕ}

theorem move_respond (hs : s.move cfg sm (.respond k) = some s') : ∃ c res,
    s.calls[k]? = some c ∧ c.stage = .waiting ∧ c.channel = some res ∧
      s' = s.finish k c (.returned s.clock res) := by
  simp only [Replicated.move] at hs
  split at hs
  · cases hs
  · rename_i c hk
    split at hs
    · rename_i res hstage hres
      exact ⟨c, res, hk, hstage, hres, (Option.some.inj hs).symm⟩
    · cases hs

theorem move_expire {err : ProposeError} (hs : s.move cfg sm (.expire k err) = some s') : ∃ c,
    s.calls[k]? = some c ∧ c.stage = .waiting ∧ s' = s.finish k c (.failed err) := by
  simp only [Replicated.move] at hs
  split at hs
  · cases hs
  · rename_i c hk
    split at hs
    · rename_i hstage
      split_ifs at hs
      exact ⟨c, hk, hstage, (Option.some.inj hs).symm⟩
    · cases hs

end

namespace Faithful

variable {cfg : Config} {sm : StateMachine α σ ρ} {start : σ} {s s' : Replicated α σ ρ}

theorem move (h : Faithful cfg sm start s) {act : Action α} (hok : s.agreeing cfg sm act = true)
    (hs : s.move cfg sm act = some s') : Faithful cfg sm start s' := by
  cases act with
  | propose id c =>
    obtain rfl := Option.some.inj hs
    exact h.propose hok
  | group a text =>
    obtain ⟨g, hg, hf⟩ := Option.bind_eq_some_iff.mp hs
    exact h.follow hok hg hf
  | respond k =>
    obtain ⟨c, res, hk, hstage, hres, rfl⟩ := move_respond hs
    exact h.finish hk hstage fun slot b hplace =>
      h.own (List.mem_of_getElem? hk) hstage hres hplace
  | expire k err =>
    obtain ⟨c, hk, hstage, rfl⟩ := move_expire hs
    exact h.finish hk hstage fun _ _ _ => trivial

/-- **Every step keeps the invariant**, when it meets the conditions. -/
theorem step (h : Faithful cfg sm start s) {act : Action α} (hok : s.agreeing cfg sm act = true)
    (hs : s.step cfg sm act = some s') : Faithful cfg sm start s' := by
  obtain ⟨s₁, hmove, rfl⟩ := Option.map_eq_some_iff.mp hs
  exact (h.move hok hmove).tick

theorem run {acts : List (Action α)}
    (hrun : Run (Replicated.step cfg sm) (agreeing cfg sm) (Replicated.init start) acts s) :
    Faithful cfg sm start s :=
  hrun.invariant (I := Faithful cfg sm start) (fun _ _ _ h hok hs => h.step hok hs)
    (.init cfg sm start)

end Faithful

end Replicated

end PaxosPayments.Paxos
