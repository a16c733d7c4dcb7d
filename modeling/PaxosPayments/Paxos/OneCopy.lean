import PaxosPayments.Paxos.Answers

/-!
# The replicas are one machine

A replicated machine refines one copy of it (`Refines`). The state of the copy is that of the
replica that has applied most, and a call takes effect when a replica applies its slot for the first
time. `Refines.step` is the simulation: every step of the replicas is none of the copy, or executes
one call that has not been executed before. What a call returns is what the copy has answered.

The slot of a call may have been handed out to several calls, under different ballots, and they may
have the same command. Which of them takes effect is settled when the slot is applied, because at
most one of them can still be answered: nothing is chosen below the ballot of the other
(`eq_of_reachable`). A call that is given a slot later, after it has been applied, comes too late
(`Invariant.outOfReach_of_chosen`).

It follows that calls are linearizable (`linearizable`), and that replicas that have applied equally
many slots have the same machine (`machines_agree`). All this is about the runs in which every step
meets the conditions of `Agreement` (`agreeing`). The code does not see to it that they are met.
-/

namespace PaxosPayments.Paxos.Replicated

variable {α σ ρ : Type*}

/-- The `k`th call was given the slot, and its command is `raw`. -/
def IsCandidate (sm : StateMachine α σ ρ) (s : Replicated α σ ρ) (slot : ℕ) (raw : Command)
    (k : ℕ) : Prop :=
  ∃ t, (s.calls.map Call.toTicket)[k]? = some t ∧ t.IsFor slot ∧ sm.encode t.command = raw

/-- The call with this ticket can no longer be answered from its slot. -/
def Forsaken (cfg : Config) (sm : StateMachine α σ ρ) (s : Replicated α σ ρ) (t : Ticket α) :
    Prop :=
  ∀ slot b, t.place = some (slot, b) →
    Voting.OutOfReach cfg.quorums s.group.record slot b (sm.encode t.command)

/-- The replicas are one machine: `log` is what the replica that is ahead has applied, and `o` what
has become of the machine and of the calls. -/
structure Refines (cfg : Config) (sm : StateMachine α σ ρ) (start : σ) (s : Replicated α σ ρ)
    (log : List (ℕ × Command)) (o : Linear.Object σ ρ) : Prop where
  faithful : Faithful cfg sm start s
  ahead : ∃ id, (s.group.nodes id).appliedLog = log
  longest : ∀ p, (s.group.nodes p).appliedLog <:+ log
  state : o.state = sm.after start log
  answered : ∀ k r, o.answers k = some r → ∃ t slot, (s.calls.map Call.toTicket)[k]? = some t ∧
    t.IsFor slot ∧ sm.Answered start log slot (sm.encode t.command) (some r)
  /-- A call whose slot has been applied takes effect then or never. -/
  unanswered : ∀ (k : ℕ) t slot, (s.calls.map Call.toTicket)[k]? = some t → t.IsFor slot →
    slot ∈ log.map Prod.fst → o.answers k = none → s.Forsaken cfg sm t

namespace Refines

variable {cfg : Config} {sm : StateMachine α σ ρ} {start : σ} {s s' : Replicated α σ ρ}
  {g : ReplicaGroup} {log : List (ℕ × Command)} {o : Linear.Object σ ρ} {id : NodeID} {k : ℕ}

theorem init (cfg : Config) (sm : StateMachine α σ ρ) (start : σ) :
    Refines cfg sm start (Replicated.init start) [] (.init start) where
  faithful := .init cfg sm start
  ahead := ⟨"", rfl⟩
  longest _ := List.suffix_rfl
  state := rfl
  answered _ _ h := by cases h
  unanswered _ _ _ h := by simp [Replicated.init] at h

theorem inOrder (h : Refines cfg sm start s log o) : InOrder log.length log := by
  obtain ⟨id, rfl⟩ := h.ahead
  have hlog := h.faithful.ordered id
  rwa [hlog.length]

theorem chosen (h : Refines cfg sm start s log o) {x : ℕ × Command} (hx : x ∈ log) :
    ∃ b, Voting.ChosenAt cfg.quorums s.group.record x.1 b x.2 := by
  obtain ⟨id, rfl⟩ := h.ahead
  exact (h.faithful.group.safe.nodes id).applied x.1 x.2 (Node.mem_appliedLog.mp hx)

/-- **What a call returns is what the copy has answered.** -/
theorem returned (h : Refines cfg sm start s log o) {c : Call α ρ} (hc : s.calls[k]? = some c)
    {time : ℕ} {res : Option ρ} (hstage : c.stage = .returned time res) :
    ∃ r, res = some r ∧ o.answers k = some r := by
  have htracked := h.faithful.call c (List.mem_of_getElem? hc)
  have htk : (s.calls.map Call.toTicket)[k]? = some c.toTicket := by
    rw [List.getElem?_map, hc]
    rfl
  cases hplace : c.place with
  | none =>
    obtain ⟨err, herr⟩ := htracked.refused hplace
    rw [hstage] at herr
    cases herr
  | some p =>
    have hfollows := (htracked.placed p.1 p.2 hplace).stage
    rw [hstage] at hfollows
    obtain ⟨hch, hans⟩ := hfollows
    have hans := hans.mono (h.longest c.node)
    cases hr : o.answers k with
    | none =>
      have hforsaken := h.unanswered k c.toTicket p.1 htk ⟨p.2, hplace⟩
        (List.mem_map_of_mem hans.mem) hr
      exact absurd hch (hforsaken p.1 p.2 hplace _ (.refl _) h.faithful.group.safe.sound)
    | some r =>
      obtain ⟨t, slot, ht, ⟨b, hfor⟩, hans'⟩ := h.answered k r hr
      obtain rfl := Option.some.inj (htk.symm.trans ht)
      obtain rfl : p = (slot, b) := Option.some.inj (hplace.symm.trans hfor)
      obtain ⟨newer, older, heq, hres⟩ := hans'
      exact ⟨r, (hans.result h.inOrder heq).2.symm.trans hres, rfl⟩

/-! ## Steps in which no slot is applied for the first time -/

/-- What is left to be shown of a step after which the calls have the same tickets, and no replica
is ahead of the log. -/
theorem next (h : Refines cfg sm start s log o) (hfaithful : Faithful cfg sm start s')
    (hgrow : Voting.Extends s.group.record s'.group.record)
    (hahead : ∃ id, (s'.group.nodes id).appliedLog = log)
    (hlongest : ∀ p, (s'.group.nodes p).appliedLog <:+ log)
    (htickets : s'.calls.map Call.toTicket = s.calls.map Call.toTicket) :
    Refines cfg sm start s' log o where
  faithful := hfaithful
  ahead := hahead
  longest := hlongest
  state := h.state
  answered := by
    rw [htickets]
    exact h.answered
  unanswered k t slot ht hfor hslot hnone b hplace := by
    rw [htickets] at ht
    exact fun hp => hgrow.outOfReach (h.unanswered k t slot ht hfor hslot hnone b hplace hp)

end Refines

/-! ## The call that takes effect -/

namespace Faithful

variable {cfg : Config} {sm : StateMachine α σ ρ} {start : σ} {s : Replicated α σ ρ}
  {t t' : Ticket α} {k k' slot : ℕ}

/-- Of the calls that have been given a slot, at most one can still be answered: nothing is chosen
below the ballot of the other. -/
theorem eq_of_reachable (h : Faithful cfg sm start s)
    (ht : (s.calls.map Call.toTicket)[k]? = some t)
    (ht' : (s.calls.map Call.toTicket)[k']? = some t') (hfor : t.IsFor slot)
    (hfor' : t'.IsFor slot) (hopen : ¬s.Forsaken cfg sm t) (hopen' : ¬s.Forsaken cfg sm t') :
    k = k' := by
  have hbelow : ∀ {t t' : Ticket α} {b b' : Ballot}, t' ∈ s.calls.map Call.toTicket →
      t.place = some (slot, b) → t'.place = some (slot, b') → b < b' → s.Forsaken cfg sm t := by
    intro t t' b b' ht' hplace hplace' hlt slot₀ b₀ hplace₀
    obtain ⟨rfl, rfl⟩ := Prod.mk.inj (Option.some.inj (hplace.symm.trans hplace₀))
    obtain ⟨c, hc, rfl⟩ := List.mem_map.mp ht'
    have hfree := ((h.call c hc).placed _ _ hplace').free
    exact .of_safeBelow (hfree (0 :: sm.encode t.command)) (List.cons_ne_self _ _) hlt
  obtain ⟨b, hplace⟩ := hfor
  obtain ⟨b', hplace'⟩ := hfor'
  rcases lt_trichotomy b b' with hlt | rfl | hgt
  · exact absurd (hbelow (List.mem_of_getElem? ht') hplace hplace' hlt) hopen
  · exact h.distinct k k' t t' (slot, b) ht ht' hplace hplace'
  · exact absurd (hbelow (List.mem_of_getElem? ht) hplace' hplace hgt) hopen'

/-- **A chosen command belongs to one call**: no other call with its slot can be answered. -/
theorem exists_owner (h : Faithful cfg sm start s) {b : Ballot} {raw : Command}
    (hch : Voting.ChosenAt cfg.quorums s.group.record slot b raw) (hraw : raw ≠ []) :
    ∃ k, s.IsCandidate sm slot raw k ∧ ∀ (k' : ℕ) t', (s.calls.map Call.toTicket)[k']? = some t' →
      t'.IsFor slot → k' ≠ k → s.Forsaken cfg sm t' := by
  by_cases hex : ∃ (k : ℕ) (t : Ticket α), (s.calls.map Call.toTicket)[k]? = some t ∧
      t.IsFor slot ∧ ¬s.Forsaken cfg sm t
  · obtain ⟨k, t, ht, hfor, hopen⟩ := hex
    refine ⟨k, ⟨t, ht, hfor, ?_⟩, fun k' t' ht' hfor' hne => ?_⟩
    · by_contra hother
      refine hopen fun slot' b' hplace => ?_
      obtain ⟨b₀, hplace₀⟩ := hfor
      obtain ⟨rfl, rfl⟩ := Prod.mk.inj (Option.some.inj (hplace₀.symm.trans hplace))
      exact .of_chosen hch fun heq => hother heq.symm
    · by_contra hopen'
      exact hne (h.eq_of_reachable ht' ht hfor' hfor hopen' hopen)
  · push Not at hex
    obtain ⟨a, ha⟩ := hch.exists_vote
    rcases h.origin _ (h.group.safe.sound.votes ha) with hnil | ⟨t, ht, hfor, heq⟩
    · exact absurd hnil hraw
    · obtain ⟨k, hk⟩ := List.mem_iff_getElem?.mp ht
      exact ⟨k, ⟨t, hk, hfor, heq⟩, fun k' t' ht' hfor' _ => hex k' t' ht' hfor'⟩

end Faithful

namespace Refines

variable {cfg : Config} {sm : StateMachine α σ ρ} {start : σ} {s s' : Replicated α σ ρ}
  {g : ReplicaGroup} {log : List (ℕ × Command)} {o o' : Linear.Object σ ρ} {id : NodeID} {k : ℕ}

/-- What a step is for the copy: nothing, or the execution of a call. -/
def Progress (sm : StateMachine α σ ρ) (s : Replicated α σ ρ) (o o' : Linear.Object σ ρ) : Prop :=
  o' = o ∨ ∃ (k : ℕ) (c : Call α ρ), s.calls[k]? = some c ∧ o.answers k = none ∧
    o' = o.execute sm.step k c.command

/-- A slot is applied for the first time. -/
theorem extend (h : Refines cfg sm start s log o) (hfaithful : Faithful cfg sm start s')
    (hgrow : Voting.Extends s.group.record s'.group.record) {raw : Command}
    (hlog : (s'.group.nodes id).appliedLog = (log.length + 1, raw) :: log)
    (hlongest : ∀ p, (s'.group.nodes p).appliedLog <:+ (log.length + 1, raw) :: log)
    (htickets : s'.calls.map Call.toTicket = s.calls.map Call.toTicket) :
    ∃ o', Refines cfg sm start s' ((log.length + 1, raw) :: log) o' ∧ Progress sm s o o' := by
  obtain ⟨b, hch⟩ : ∃ b, Voting.ChosenAt cfg.quorums s'.group.record (log.length + 1) b raw :=
    (hfaithful.group.safe.nodes id).applied _ raw
      (Node.mem_appliedLog.mp (hlog ▸ List.mem_cons_self))
  have hsuffix : log <:+ (log.length + 1, raw) :: log := List.suffix_cons _ _
  have hfresh : log.length + 1 ∉ log.map Prod.fst := fun hmem =>
    absurd (h.inOrder.mem_map_fst.mp hmem).2 (by omega)
  by_cases hraw : raw = []
  · subst hraw
    refine ⟨o, ⟨hfaithful, ⟨id, hlog⟩, hlongest, h.state, fun k r hr => ?_,
      fun k t slot ht hfor hslot hnone => ?_⟩, Or.inl rfl⟩
    · rw [htickets]
      obtain ⟨t, slot, ht, hfor, hans⟩ := h.answered k r hr
      exact ⟨t, slot, ht, hfor, hans.mono hsuffix⟩
    · rcases List.mem_cons.mp hslot with rfl | hslot
      · -- a no-op has been chosen in the slot of the call
        obtain ⟨b₀, hplace₀⟩ := hfor
        intro slot b' hplace
        obtain ⟨rfl, rfl⟩ := Prod.mk.inj (Option.some.inj (hplace₀.symm.trans hplace))
        exact .of_chosen hch fun heq => sm.encode_ne_nil _ heq.symm
      · rw [htickets] at ht
        exact fun slot' b' hplace =>
          hgrow.outOfReach (h.unanswered k t slot ht hfor hslot hnone slot' b' hplace)
  · obtain ⟨k, ⟨t, ht, hfor, rfl⟩, hothers⟩ := hfaithful.exists_owner hch hraw
    rw [htickets] at ht
    have hnone : o.answers k = none := by
      cases hr : o.answers k with
      | none => rfl
      | some r =>
        obtain ⟨t', slot', ht', ⟨b', hplace'⟩, hans⟩ := h.answered k r hr
        obtain rfl := Option.some.inj (ht.symm.trans ht')
        obtain ⟨b₀, hplace₀⟩ := hfor
        obtain ⟨rfl, -⟩ := Prod.mk.inj (Option.some.inj (hplace₀.symm.trans hplace'))
        exact absurd (List.mem_map_of_mem hans.mem) hfresh
    have hentry := @StateMachine.applyEntry_encode _ _ _ sm o.state t.command
    refine ⟨o.execute sm.step k t.command, ⟨hfaithful, ⟨id, hlog⟩, hlongest, ?_, fun l r hr => ?_,
      fun l t' slot ht' hfor' hslot hl => ?_⟩, ?_⟩
    · change (sm.step o.state t.command).1 = (sm.applyEntry (sm.after start log) _).1
      rw [← h.state, hentry]
    · rw [htickets]
      by_cases hl : l = k
      · subst hl
        rw [Linear.Object.answers_execute_self] at hr
        refine ⟨t, _, ht, hfor, [], log, rfl, ?_⟩
        rw [← h.state, hentry, ← hr]
      · rw [Linear.Object.answers_execute_of_ne hl] at hr
        obtain ⟨t', slot, ht', hfor', hans⟩ := h.answered l r hr
        exact ⟨t', slot, ht', hfor', hans.mono hsuffix⟩
    · have hlk : l ≠ k := by
        rintro rfl
        rw [Linear.Object.answers_execute_self] at hl
        cases hl
      rw [Linear.Object.answers_execute_of_ne hlk] at hl
      rcases List.mem_cons.mp hslot with rfl | hslot
      · exact hothers l t' ht' hfor' hlk
      · rw [htickets] at ht'
        exact fun slot' b' hplace =>
          hgrow.outOfReach (h.unanswered l t' slot ht' hfor' hslot hl slot' b' hplace)
    · rw [List.getElem?_map] at ht
      obtain ⟨c, hc, rfl⟩ := Option.map_eq_some_iff.mp ht
      exact Or.inr ⟨k, c, hc, hnone, rfl⟩

/-! ## The simulation -/

theorem apply_group (s : Replicated α σ ρ) (sm : StateMachine α σ ρ) (id : NodeID)
    (g : ReplicaGroup) : (s.apply sm id g).group = g := by
  unfold Replicated.apply
  dsimp only
  split <;> rfl

theorem apply_tickets (s : Replicated α σ ρ) (sm : StateMachine α σ ρ) (id : NodeID)
    (g : ReplicaGroup) :
    (s.apply sm id g).calls.map Call.toTicket = s.calls.map Call.toTicket := by
  unfold Replicated.apply
  dsimp only
  split
  · rfl
  · exact deliver_tickets _ _ _ _

/-- A round of the apply loop: the slot is one that another replica has applied, or it is applied
for the first time. -/
theorem apply (h : Refines cfg sm start s log o) (hok : s.group.guarded cfg (.apply id) = true)
    (hs : s.group.step cfg (.apply id) = some g) :
    ∃ log' o', Refines cfg sm start (s.apply sm id g) log' o' ∧ Progress sm s o o' := by
  have hfaithful : Faithful cfg sm start (s.apply sm id g) := h.faithful.apply hok hs
  have hgroup : (s.apply sm id g).group = g := apply_group s sm id g
  have hgrow : Voting.Extends s.group.record (s.apply sm id g).group.record := by
    rw [hgroup]
    exact (ReplicaGroup.safe_step h.faithful.group.safe h.faithful.group.form
      h.faithful.group.assign hok (.of_step hs)).grows.record
  obtain ⟨e, -, hlog, hothers⟩ := ReplicaGroup.appliedLog_of_apply hs
  have hindex := (h.faithful.ordered id).length
  have hsuffix := h.longest id
  rcases hsuffix.length_le.lt_or_eq with hlt | heq
  · -- another replica has applied the slot before
    obtain ⟨q, hq⟩ := h.ahead
    have hqid : q ≠ id := by
      rintro rfl
      rw [hq] at hlt
      exact lt_irrefl _ hlt
    have hq' : ((s.apply sm id g).group.nodes q).appliedLog = log := by
      rw [hgroup, hothers q hqid, hq]
    have hle : ((s.apply sm id g).group.nodes id).appliedIndex ≤
        ((s.apply sm id g).group.nodes q).appliedIndex := by
      rw [← (hfaithful.ordered id).length, ← (hfaithful.ordered q).length, hq', hgroup, hlog,
        List.length_cons]
      exact hlt
    refine ⟨log, o, h.next hfaithful hgrow ⟨q, hq'⟩ (fun p => ?_) (apply_tickets s sm id g),
      Or.inl rfl⟩
    by_cases hp : p = id
    · rw [hp, ← hq']
      exact hfaithful.suffix hle
    · rw [hgroup, hothers p hp]
      exact h.longest p
  · have hold : (s.group.nodes id).appliedLog = log := hsuffix.eq_of_length heq
    have hnew : ((s.apply sm id g).group.nodes id).appliedLog =
        (log.length + 1, e.command) :: log := by
      rw [hgroup, hlog, uint64Succ_of_lt (h.faithful.group.applied_lt id), ← hindex, hold]
    have hlongest : ∀ p, ((s.apply sm id g).group.nodes p).appliedLog <:+
        (log.length + 1, e.command) :: log := by
      intro p
      by_cases hp : p = id
      · rw [hp, hnew]
      · rw [hgroup, hothers p hp]
        exact (h.longest p).trans (List.suffix_cons _ _)
    exact ⟨_, h.extend hfaithful hgrow hnew hlongest (apply_tickets s sm id g)⟩

theorem proceed (h : Refines cfg sm start s log o) {a : ReplicaGroup.Action} {text : String}
    (hok : s.group.guarded cfg a = true) (hs : s.group.step cfg a = some g)
    (hpropose : ∀ id command, a ≠ .propose id command) (happly : ∀ p, a ≠ .apply p) :
    Refines cfg sm start (s.proceed cfg a text g) log o := by
  have ho := ReplicaGroup.Outcome.of_step hs
  have hsame : ∀ p, (g.nodes p).appliedLog = (s.group.nodes p).appliedLog := fun p =>
    ((ho.applied p).resolve_right fun hact => happly p hact.1).log
  refine h.next (h.faithful.proceed hok hs hpropose happly) ?_ ?_ (fun p => ?_) ?_
  · exact (ReplicaGroup.safe_step h.faithful.group.safe h.faithful.group.form
      h.faithful.group.assign hok ho).grows.record
  · obtain ⟨q, hq⟩ := h.ahead
    exact ⟨q, (hsame q).trans hq⟩
  · exact (hsame p).symm ▸ h.longest p
  · rw [Replicated.proceed, List.map_map]
    rfl

/-- A call that is given a slot now cannot be answered, if the slot has been applied. -/
theorem propose (h : Refines cfg sm start s log o) {command : α}
    (hok : s.group.guarded cfg (.propose id (sm.encode command)) = true) :
    Refines cfg sm start (s.propose cfg sm id command) log o := by
  have hfaithful : Faithful cfg sm start (s.propose cfg sm id command) := h.faithful.propose hok
  obtain ⟨g, new, hcalls, hgroup, hgrow, hsame, hlate⟩ : ∃ g new,
      (s.propose cfg sm id command).calls = s.calls ++ [new] ∧
      (s.propose cfg sm id command).group = g ∧ Voting.Extends s.group.record g.record ∧
      (∀ p, (g.nodes p).appliedLog = (s.group.nodes p).appliedLog) ∧
      ∀ slot b, new.place = some (slot, b) → (s.group.nodes id).role = .leader ∧
        slot = (s.group.nodes id).nextSlot ∧ b = (s.group.nodes id).ballot := by
    unfold Replicated.propose
    cases hg : s.group.propose cfg id (sm.encode command) with
    | none => exact ⟨_, _, rfl, rfl, .refl _, fun _ => rfl, by simp⟩
    | some g =>
      have hstep : s.group.step cfg (.propose id (sm.encode command)) = some g := hg
      have ho := ReplicaGroup.Outcome.of_step hstep
      refine ⟨g, _, rfl, rfl, (ReplicaGroup.safe_step h.faithful.group.safe
        h.faithful.group.form h.faithful.group.assign hok ho).grows.record, fun p => ?_,
        fun slot b hplace => ?_⟩
      · exact ((ho.applied p).resolve_right fun hact => by cases hact.1).log
      · obtain ⟨rfl, rfl⟩ := Prod.mk.inj (Option.some.inj hplace)
        unfold ReplicaGroup.propose at hg
        dsimp only at hg
        split_ifs at hg with hrefuse
        push Not at hrefuse
        exact ⟨hrefuse.2, rfl, rfl⟩
  have htickets : (s.propose cfg sm id command).calls.map Call.toTicket =
      s.calls.map Call.toTicket ++ [new.toTicket] := by
    rw [hcalls, List.map_append, List.map_singleton]
  refine ⟨hfaithful, ?_, fun p => ?_, h.state, fun k r hr => ?_,
    fun k t slot ht hfor hslot hnone => ?_⟩
  · obtain ⟨q, hq⟩ := h.ahead
    exact ⟨q, by rw [hgroup, hsame, hq]⟩
  · rw [hgroup, hsame]
    exact h.longest p
  · obtain ⟨t, slot, ht, hrest⟩ := h.answered k r hr
    rw [htickets]
    exact ⟨t, slot, Table.getElem?_concat ht _, hrest⟩
  · rw [htickets] at ht
    unfold Forsaken
    rw [hgroup]
    rcases Table.getElem?_concat_eq_some.mp ht with ht | ⟨-, rfl⟩
    · exact fun slot' b' hplace =>
        hgrow.outOfReach (h.unanswered k t slot ht hfor hslot hnone slot' b' hplace)
    · intro slot' b' hplace
      obtain ⟨b, hplace₀⟩ := hfor
      obtain ⟨rfl, rfl⟩ := Prod.mk.inj (Option.some.inj (hplace₀.symm.trans hplace))
      obtain ⟨hl, rfl, rfl⟩ := hlate _ _ hplace
      obtain ⟨x, hx, hfst⟩ := List.mem_map.mp hslot
      obtain ⟨b', hch⟩ := h.chosen hx
      rw [hfst] at hch
      exact hgrow.outOfReach (h.faithful.group.outOfReach_of_chosen hl hch)

theorem tick (h : Refines cfg sm start s log o) : Refines cfg sm start s.tick log o :=
  ⟨h.faithful.tick, h.ahead, h.longest, h.state, h.answered, h.unanswered⟩

/-- **The replicas simulate one copy**: every step is none of the copy, or it executes a call that
has not been executed. -/
theorem step (h : Refines cfg sm start s log o) {act : Action α}
    (hok : s.agreeing cfg sm act = true) (hs : s.step cfg sm act = some s') :
    ∃ log' o', Refines cfg sm start s' log' o' ∧ Progress sm s o o' := by
  obtain ⟨s₁, hmove, rfl⟩ := Option.map_eq_some_iff.mp hs
  obtain ⟨log', o', h', hprogress⟩ :
      ∃ log' o', Refines cfg sm start s₁ log' o' ∧ Progress sm s o o' := by
    have hfaithful := h.faithful.move hok hmove
    cases act with
    | propose id c =>
      obtain rfl := Option.some.inj hmove
      exact ⟨log, o, h.propose hok, Or.inl rfl⟩
    | group a text =>
      obtain ⟨g, hg, hf⟩ := Option.bind_eq_some_iff.mp hmove
      unfold Replicated.follow at hf
      split at hf
      · cases hf
      · obtain rfl := Option.some.inj hf
        exact h.apply hok hg
      · rename_i hpropose happly
        obtain rfl := Option.some.inj hf
        exact ⟨log, o, h.proceed hok hg hpropose happly, Or.inl rfl⟩
    | respond k =>
      refine ⟨log, o, ?_, Or.inl rfl⟩
      obtain ⟨c, res, hc, -, -, rfl⟩ := move_respond hmove
      exact h.next hfaithful (.refl _) h.ahead h.longest (Table.map_set_eq hc rfl)
    | expire k err =>
      refine ⟨log, o, ?_, Or.inl rfl⟩
      obtain ⟨c, hc, -, rfl⟩ := move_expire hmove
      exact h.next hfaithful (.refl _) h.ahead h.longest (Table.map_set_eq hc rfl)
  exact ⟨log', o', h'.tick, hprogress⟩

end Refines

/-- The calls after a step that adds none. -/
theorem tickets_step {cfg : Config} {sm : StateMachine α σ ρ} {s s' : Replicated α σ ρ}
    {act : Action α} (hs : s.step cfg sm act = some s') (hact : ∀ id c, act ≠ .propose id c) :
    s'.calls.map Call.toTicket = s.calls.map Call.toTicket := by
  obtain ⟨s₁, hmove, rfl⟩ := Option.map_eq_some_iff.mp hs
  change s₁.calls.map Call.toTicket = s.calls.map Call.toTicket
  cases act with
  | propose id c => exact absurd rfl (hact id c)
  | group a text =>
    obtain ⟨g, hg, hf⟩ := Option.bind_eq_some_iff.mp hmove
    unfold Replicated.follow at hf
    split at hf
    · cases hf
    · obtain rfl := Option.some.inj hf
      exact Refines.apply_tickets _ _ _ _
    · obtain rfl := Option.some.inj hf
      rw [Replicated.proceed, List.map_map]
      rfl
  | respond k =>
    obtain ⟨c, res, hc, -, -, rfl⟩ := move_respond hmove
    exact Table.map_set_eq hc rfl
  | expire k err =>
    obtain ⟨c, hc, -, rfl⟩ := move_expire hmove
    exact Table.map_set_eq hc rfl

/-- The calls after a proposal. -/
theorem calls_propose (cfg : Config) (sm : StateMachine α σ ρ) (s : Replicated α σ ρ) (id : NodeID)
    (c : α) :
    ∃ new : Call α ρ, new.command = c ∧ (s.propose cfg sm id c).calls = s.calls ++ [new] := by
  unfold Replicated.propose
  split
  · exact ⟨_, rfl, rfl⟩
  · exact ⟨_, rfl, rfl⟩

/-! ## Linearizability -/

section

variable {cfg : Config} {sm : StateMachine α σ ρ} {start : σ} {s s' : Replicated α σ ρ}
  {acts : List (Action α)}

theorem operation_of_ne_returned {c : Call α ρ}
    (h : ∀ time res, c.stage ≠ .returned time res) : c.operation = ⟨c.command, c.called, none⟩ := by
  unfold Call.operation
  congr 1
  split
  · rename_i time r hstage
    exact absurd hstage (h time (some r))
  · rfl

/-- No call returns in a step of the group. -/
theorem operation_advance (g : ReplicaGroup) (a : ReplicaGroup.Action) (text : String)
    (c : Call α ρ) : (c.advance cfg g a text).operation = c.operation := by
  by_cases hret : ∃ time res, c.stage = .returned time res
  · obtain ⟨time, res, hstage⟩ := hret
    have hsame : c.advance cfg g a text = c := by
      unfold Call.advance
      rw [show c.next cfg g a text = c.stage by simp [Call.next, Call.failure, hstage]]
    rw [hsame]
  · push Not at hret
    rw [operation_of_ne_returned hret, operation_of_ne_returned fun time res hstage => ?_]
    · rfl
    change c.next cfg g a text = .returned time res at hstage
    unfold Call.next at hstage
    split at hstage
    · cases hstage
    · split at hstage
      · split_ifs at hstage
        exact hret time res hstage
      · split_ifs at hstage
        exact hret time res hstage
      · exact hret time res hstage

/-- What becomes of the history in a step: a call is added, or one returns. -/
theorem operations_move {act : Action α} (hs : s.move cfg sm act = some s') :
    s'.operations = s.operations ∨
    (∃ op, op.returned = none ∧ s'.operations = s.operations ++ [op]) ∨
    ∃ (k : ℕ) (c : Call α ρ) (res : Option ρ), s.calls[k]? = some c ∧ c.stage = .waiting ∧
      s' = s.finish k c (.returned s.clock res) := by
  cases act with
  | propose id c =>
    obtain rfl := Option.some.inj hs
    refine Or.inr (Or.inl ?_)
    unfold Replicated.propose
    split
    · exact ⟨_, rfl, by rw [operations, List.map_append, List.map_singleton]; rfl⟩
    · exact ⟨_, rfl, by rw [operations, List.map_append, List.map_singleton]; rfl⟩
  | group a text =>
    obtain ⟨g, hg, hf⟩ := Option.bind_eq_some_iff.mp hs
    left
    unfold Replicated.follow at hf
    split at hf
    · cases hf
    · obtain rfl := Option.some.inj hf
      unfold Replicated.apply
      dsimp only
      split
      · rfl
      · unfold Replicated.deliver operations
        dsimp only
        split
        · rfl
        · refine Table.map_modify_eq ?_ _ _
          exact fun _ => rfl
    · obtain rfl := Option.some.inj hf
      rw [operations, Replicated.proceed, List.map_map]
      exact List.map_congr_left fun c _ => operation_advance s.group a text c
  | respond k =>
    obtain ⟨c, res, hc, hstage, -, rfl⟩ := move_respond hs
    exact Or.inr (Or.inr ⟨k, c, res, hc, hstage, rfl⟩)
  | expire k err =>
    obtain ⟨c, hc, hstage, rfl⟩ := move_expire hs
    left
    refine Table.map_set_eq hc ?_
    rw [operation_of_ne_returned (by simp), operation_of_ne_returned (by simp [hstage])]

/-- The replicas are one machine, and the order in which calls have taken effect there explains what
the callers have seen. -/
def Explained (cfg : Config) (sm : StateMachine α σ ρ) (start : σ) (s : Replicated α σ ρ) : Prop :=
  ∃ log o order, Refines cfg sm start s log o ∧
    Linear.Explains sm.step start s.operations order o

theorem Explained.step (h : Explained cfg sm start s) {act : Action α}
    (hok : s.agreeing cfg sm act = true) (hs : s.step cfg sm act = some s') :
    Explained cfg sm start s' := by
  obtain ⟨log, o, order, href, hexp⟩ := h
  obtain ⟨log', o', href', hprogress⟩ := href.step hok hs
  -- first the call that takes effect, then the one that is added or returns
  obtain ⟨order', hexp'⟩ : ∃ order', Linear.Explains sm.step start s.operations order' o' := by
    rcases hprogress with rfl | ⟨k, c, hc, hnone, rfl⟩
    · exact ⟨order, hexp⟩
    · have hop : s.operations[k]? = some c.operation := by
        rw [operations, List.getElem?_map, hc]
        rfl
      refine ⟨order ++ [k], hexp.execute hop ?_ hnone⟩
      cases hr : c.operation.returned with
      | none => rfl
      | some p =>
        rw [hexp.result_of_returned hop hr] at hnone
        cases hnone
  refine ⟨log', o', order', href', ?_⟩
  obtain ⟨s₁, hmove, rfl⟩ := Option.map_eq_some_iff.mp hs
  change Linear.Explains sm.step start s₁.operations order' o'
  rcases operations_move hmove with hsame | ⟨op, hopen, hadd⟩ | ⟨k, c, res, hc, hstage, rfl⟩
  · rw [hsame]
    exact hexp'
  · rw [hadd]
    exact hexp'.call hopen
  · have hlt := (List.getElem?_eq_some_iff.mp hc).1
    have hend : (s.finish k c (.returned s.clock res)).tick.calls[k]? =
        some { c with stage := .returned s.clock res } := List.getElem?_set_self hlt
    obtain ⟨r, rfl, hr⟩ := href'.returned hend rfl
    have hops : (s.finish k c (.returned s.clock (some r))).operations =
        s.operations.set k { c.operation with returned := some (s.clock, r) } := by
      rw [operations, finish, List.map_set]
      rfl
    rw [hops]
    refine hexp'.ret (by rw [operations, List.getElem?_map, hc]; rfl) hr fun op hop => ?_
    obtain ⟨c', hc', rfl⟩ := List.mem_map.mp hop
    exact href.faithful.clock c' hc'

theorem Explained.run
    (hrun : Run (Replicated.step cfg sm) (agreeing cfg sm) (Replicated.init start) acts s) :
    Explained cfg sm start s :=
  hrun.invariant (I := Explained cfg sm start) (fun _ _ _ h hok hs => h.step hok hs)
    ⟨[], _, [], .init cfg sm start, .init sm.step start⟩

/-- **Calls of `Propose` are linearizable**: there is an order of the calls in which each that has
returned has the result that the machine gives, and which respects the times of calls and returns.
-/
theorem linearizable
    (hrun : Run (Replicated.step cfg sm) (agreeing cfg sm) (Replicated.init start) acts s) :
    Linear.Linearizable sm.step start s.operations := by
  obtain ⟨log, o, order, -, h⟩ := Explained.run hrun
  exact ⟨order, h.linearizes⟩

/-- A machine that keeps what it is given and answers how much it had. -/
def tally : StateMachine UInt8 (List UInt8) ℕ where
  encode b := [b]
  apply s raw := (s ++ raw, s.length)
  step s b := (s ++ [b], s.length)
  encode_ne_nil _ := List.cons_ne_nil _ _
  apply_encode _ _ := rfl

/-- A call that is accepted by `ps`, applied and answered; `jid` will be the number of its job and
`k` its own. -/
def served (id : NodeID) (ps : List NodeID) (jid k : ℕ) (b : UInt8) : List (Action UInt8) :=
  .propose id b :: ((ReplicaGroup.proposal id ps jid []).tail.map (Action.group · "") ++
    [.group (.apply id) "", .respond k])

/-- `A` is elected and answers two calls. Between them `C` refuses one. -/
def twoServed : List (Action UInt8) :=
  (ReplicaGroup.election "A" ["B"] 0).map (Action.group · "") ++ served "A" ["B"] 3 0 7 ++
    [.propose "C" 9] ++ served "A" ["C"] 5 2 8

theorem linearizable_twoServed : ∃ s,
    Run (Replicated.step ReplicaGroup.threeReplicas tally)
      (agreeing ReplicaGroup.threeReplicas tally) (Replicated.init []) twoServed s ∧
    s.operations = [⟨7, 8, some (14, 0)⟩, ⟨9, 15, none⟩, ⟨8, 16, some (22, 1)⟩] ∧
    Linear.Linearizable tally.step [] s.operations := by
  obtain ⟨s, hrun, hops⟩ := Run.exists_of_exec_map
    (Replicated.step ReplicaGroup.threeReplicas tally)
    (agreeing ReplicaGroup.threeReplicas tally) (Replicated.init []) twoServed operations
    [⟨7, 8, some (14, 0)⟩, ⟨9, 15, none⟩, ⟨8, 16, some (22, 1)⟩] (by decide +kernel)
  exact ⟨s, hrun, hops, linearizable hrun⟩

/-- **Replicas do not diverge**: there is one log such that the machine of every replica is the
machine after the first slots of this log, as many as the replica has applied. -/
theorem machines_agree
    (hrun : Run (Replicated.step cfg sm) (agreeing cfg sm) (Replicated.init start) acts s) :
    ∃ log : List Command, ∀ p, (s.group.nodes p).appliedIndex ≤ log.length ∧
      s.machines p = (log.take (s.group.nodes p).appliedIndex).foldl
        (fun s raw => (sm.applyEntry s raw).1) start := by
  obtain ⟨log, o, -, h, -⟩ := Explained.run hrun
  refine ⟨log.reverse.map Prod.snd, fun p => ?_⟩
  have hlength := (h.faithful.ordered p).length
  have htake : (log.reverse.map Prod.snd).take (s.group.nodes p).appliedIndex =
      (s.group.nodes p).appliedLog.reverse.map Prod.snd := by
    rw [← List.map_take, ← hlength, ← List.length_reverse]
    congr 1
    exact (List.prefix_iff_eq_take.mp (List.reverse_prefix.mpr (h.longest p))).symm
  constructor
  · rw [List.length_map, List.length_reverse, ← hlength]
    exact (h.longest p).length_le
  · rw [htake, h.faithful.machine p, StateMachine.after, List.foldl_map, List.foldl_reverse]

/-- `A` has applied both commands and `B` none. -/
theorem machines_agree_twoServed : ∃ s, ∃ log : List Command,
    Run (Replicated.step ReplicaGroup.threeReplicas tally)
      (agreeing ReplicaGroup.threeReplicas tally) (Replicated.init []) twoServed s ∧
    (s.machines "A", s.machines "B") = ([7, 8], []) ∧
    s.machines "A" = (log.take (s.group.nodes "A").appliedIndex).foldl
      (fun s raw => (tally.applyEntry s raw).1) [] := by
  obtain ⟨s, hrun, hmachines⟩ := Run.exists_of_exec_map
    (Replicated.step ReplicaGroup.threeReplicas tally)
    (agreeing ReplicaGroup.threeReplicas tally) (Replicated.init []) twoServed
    (fun s => (s.machines "A", s.machines "B")) ([7, 8], []) (by decide +kernel)
  obtain ⟨log, hlog⟩ := machines_agree hrun
  exact ⟨s, log, hrun, hmachines, (hlog "A").2⟩

end

end PaxosPayments.Paxos.Replicated
