import PaxosPayments.ControlPlane.Decisions
import PaxosPayments.ControlPlane.OneCoordinator

/-!
# Locks that nobody releases

A transfer has returned, its retries have ended, and its coordinator has not been closed. A commit
is delivered again until it is answered, so when the decision was COMMIT both shards have applied
it. An abort is sent once. A shard that has applied it has let go of the account, and one that has
voted YES and has not applied it may keep the account locked (`no_orphans`, `lock_lingers`).

What a call and a retry know is that a shard has decided the transaction, which is final (`Told`).
Names do not matter for that. They do for the shards that have not voted YES to the transfer: what
they have prepared was accepted from another transfer of the same name (`Known`).
-/

namespace PaxosPayments.ControlPlane

variable {n : ℕ}

/-! ## Machines -/

namespace Machine

/-- Locks and prepared transactions are inverse to each other. -/
def Paired (m : Machine) : Prop :=
  ∀ k tx, m.locks.lookup k = some tx ↔ ∃ p, m.prepared.lookup tx = some p ∧ p.key = k

theorem Paired.abortLocked {m : Machine} (h : m.Paired) (tx : String) :
    (m.abortLocked tx).Paired := by
  unfold Machine.abortLocked
  cases hp : m.prepared.lookup tx with
  | none =>
    dsimp only [Option.elim]
    split_ifs <;> exact h
  | some p =>
    dsimp only [Option.elim]
    split_ifs <;> exact locks_release h hp

end Machine

namespace Effect

variable {m m' : Machine} {c : Command} {r : Result}

theorem paired (h : Effect m c m' r) (hm : m.Paired) : m'.Paired := by
  cases h with
  | refuse | again | put | transfer => exact hm
  | prepare _ hnew _ hfree =>
    have hlock := (Machine.checkLocked_eq_none_iff.mp hfree c.key List.mem_cons_self).2
    exact Machine.locks_hold hm hnew hlock
  | commit _ p hp =>
    exact Machine.locks_release (m := m.setBalance p.key (m.balance p.key + p.amount)) hm hp
  | abort => exact hm.abortLocked c.tx

/-- A commit that is answered with OK is decided. -/
theorem decided_of_commit (h : Effect m c m' r) (hop : c.op = .commit) (hok : r.code = .ok) :
    m'.decided.lookup c.tx ≠ none := by
  cases h with
  | refuse _ hr => exact absurd hok hr
  | again _ _ hc =>
    simp only [hop, reduceCtorEq, true_and, false_and, false_or] at hc
    simp [hc]
  | commit => simp [Machine.decide]
  | put h | transfer h | prepare h | abort h => simp [hop] at h

/-- What is prepared was prepared before, or the command prepares it and is answered with YES. -/
theorem prepared_of_ne_none {tx : String} (h : Effect m c m' r)
    (hp : m'.prepared.lookup tx ≠ none) :
    m.prepared.lookup tx ≠ none ∨ c.op = .prepare ∧ c.tx = tx ∧ r.err = none := by
  by_cases hne : c.op.ofTx = true → c.tx ≠ tx
  · rw [(h.lookup_of_ne hne).1] at hp
    exact .inl hp
  push Not at hne
  obtain ⟨-, rfl⟩ := hne
  cases h with
  | refuse | again | put | transfer => exact .inl hp
  | prepare hop => exact .inr ⟨hop, rfl, rfl⟩
  | commit => exact absurd (Finmap.lookup_erase _ _) hp
  | abort => exact absurd (Machine.prepared_abortLocked m c.tx) hp

end Effect

/-! ## Calls -/

/-- The participant of that half has answered the commit, and the call knows it. -/
def Call.delivered (c : Call n) (side : Side) : Bool :=
  match c.stage, side with
  | .commit .source _, .source => c.answer = some none
  | .commit .source _, .target => false
  | .commit .target undelivered, .source => .source ∉ undelivered
  | .commit .target _, .target => c.answer = some none
  | .returned .committed, _ => true
  | .returned (.inDoubt undelivered), side => side ∉ undelivered
  | .prepare _, _ | .abort _ _, _ | .returned (.refused _), _ => false

namespace Call

variable {c : Call n} {side : Side} {err : Option String}

/-- An answer that a call knows in its next stage it has known before. -/
theorem delivered_of_next (herr : err = none → c.answer = some none)
    (h : Call.delivered { c with
      stage := c.stage.next c.transfer err, turn := c.turn + 1, answer := none } side = true) :
    c.delivered side = true := by
  cases hstage : c.stage with
  | prepare asked => cases asked <;> cases err <;> cases side <;> simp_all [delivered, Stage.next]
  | abort asked => cases asked <;> cases side <;> simp_all [delivered, Stage.next]
  | commit asked undelivered =>
    cases asked with
    | source => cases err <;> cases side <;> simp_all [delivered, Stage.next]
    | target =>
      cases undelivered <;> cases err <;> cases side <;> simp_all [delivered, Stage.next]
  | returned ending => cases ending <;> simp_all [delivered, Stage.next]

theorem delivered_of_receive {turn : ℕ} (h : (Network.receive turn err c).delivered side = true) :
    c.delivered side = true ∨
      err = none ∧ c.turn = turn ∧ c.stage.request = some (.commit, side) := by
  unfold Network.receive at h
  split_ifs at h with hturn
  · cases hstage : c.stage with
    | commit asked => cases asked <;> cases side <;> simp_all [delivered, Stage.request]
    | prepare | abort => simp_all [delivered]
    | returned ending => cases ending <;> simp_all [delivered]
  · exact .inl h

end Call

/-! ## Retries -/

namespace Network

variable {shardFor : String → Fin n} {net net' : Network n} {a : Action} {i j : ℕ} {c c' : Call n}
  {r r' : Retry} {f : Flight n}

theorem getElem?_setRetry {d : Retry} (hd : net.retries[j]? = some d) (r : Retry) (i : ℕ) :
    (net.setRetry j r).retries[i]? = if i = j then some r else net.retries[i]? := by
  obtain ⟨hj, -⟩ := List.getElem?_eq_some_iff.mp hd
  simp only [setRetry, List.getElem?_set, hj, if_true, eq_comm]

/-- The retries after an execution: an answer may have come. -/
theorem retry_execute (net : Network n) (f : Flight n) (hr : net.retries[i]? = some r) :
    (net.execute f).retries[i]? = some r ∨ ∃ turn, f.reply = .retry i turn ∧
      (net.execute f).retries[i]? =
        some (receiveRetry turn ((net.shards f.shard).applyLocked f.command).2.err r) := by
  unfold execute
  dsimp only
  split
  · rename_i k turn hreply
    by_cases hk : k = i
    · subst hk
      exact .inr ⟨turn, hreply, by simp [hr]⟩
    · exact .inl (by simp [hk, hr])
  · exact .inl hr

/-- A retry that has got its answer, or had it. -/
theorem stage_receiveRetry (turn : ℕ) (err : Option String) (r : Retry) :
    (receiveRetry turn err r).stage = r.stage ∨
      (receiveRetry turn err r).stage = .calling (some err) := by
  unfold receiveRetry
  split
  · split_ifs
    · exact .inr rfl
    · exact .inl rfl
  · exact .inl rfl
  · exact .inl rfl

theorem side_receiveRetry (turn : ℕ) (err : Option String) (r : Retry) :
    (receiveRetry turn err r).side = r.side := by
  unfold receiveRetry
  split
  · split_ifs <;> rfl
  · rfl
  · rfl

/-- **Retries only go on**: each keeps its call and its half. -/
theorem Outcome.retries (h : Outcome shardFor net a net') (hr : net.retries[i]? = some r) :
    ∃ r', net'.retries[i]? = some r' ∧ r'.call = r.call ∧ r'.side = r.side := by
  have hset : ∀ k d stage turn, net.retries[k]? = some d →
      ∃ r', (net.setRetry k { d with stage := stage, turn := turn }).retries[i]? = some r' ∧
        r'.call = r.call ∧ r'.side = r.side := by
    intro k d stage turn hd
    rw [getElem?_setRetry hd]
    split_ifs with hi
    · subst hi
      obtain rfl := Option.some.inj (hd.symm.trans hr)
      exact ⟨_, rfl, rfl, rfl⟩
    · exact ⟨r, hr, rfl, rfl⟩
  cases h with
  | client | begin | lose | close | restart => exact ⟨r, hr, rfl, rfl⟩
  | execute f =>
    rcases retry_execute (net.dropFlight _) f hr with heq | ⟨turn, -, heq⟩
    · exact ⟨r, heq, rfl, rfl⟩
    · exact ⟨_, heq, receiveRetry_call .., side_receiveRetry ..⟩
  | enter =>
    obtain ⟨hi, -⟩ := List.getElem?_eq_some_iff.mp hr
    exact ⟨r, (List.getElem?_append_left hi).trans hr, rfl, rfl⟩
  | tick d c hd => exact hset _ d _ _ hd
  | retry d stage hd => exact hset _ d stage d.turn hd

/-- A call keeps its coordinator. -/
theorem Outcome.incarnation (h : Outcome shardFor net a net') (hc : net.calls[j]? = some c)
    (hc' : net'.calls[j]? = some c') : c'.incarnation = c.incarnation := by
  have hsame : net'.calls[j]? = net.calls[j]? → c'.incarnation = c.incarnation := fun heq => by
    rw [Option.some.inj (hc'.symm.trans (heq.trans hc))]
  cases h with
  | client | lose | tick | retry | close | restart => exact hsame rfl
  | begin =>
    obtain ⟨hj, -⟩ := List.getElem?_eq_some_iff.mp hc
    exact hsame ((getElem?_begin net _ j).trans (if_neg (by omega)))
  | execute f =>
    rcases getElem?_execute (net.dropFlight _) f j with heq | ⟨turn, -, -, heq⟩
    · exact hsame heq
    · rw [Option.some.inj (hc'.symm.trans (heq.trans (congrArg _ hc)))]
      unfold receive
      split_ifs <;> rfl
  | @enter _ i d err hd =>
    rw [getElem?_enter hd] at hc'
    split_ifs at hc' with hi
    · subst hi
      rw [← Option.some.inj hc', Option.some.inj (hd.symm.trans hc)]
    · rw [Option.some.inj (hc'.symm.trans hc)]

/-- How retry `i`, so far `r`, comes to a stage in one step. -/
inductive StageChange (net : Network n) (i : ℕ) (r : Retry) (net' : Network n) : RetryStage → Prop
  | same : StageChange net i r net' r.stage
  | pausing : StageChange net i r net' .pausing
  | calling : StageChange net i r net' (.calling none)
  /-- Its commit is executed. -/
  | answered (k : ℕ) (f : Flight n) (turn : ℕ) (hf : net.flights[k]? = some f)
      (hreply : f.reply = .retry i turn) (hnet' : net' = (net.dropFlight k).execute f) :
    StageChange net i r net' (.calling (some ((net.shards f.shard).applyLocked f.command).2.err))
  /-- Its commit has been answered, or the coordinator is closed. -/
  | done (h : r.stage = .calling (some none) ∨ net.closed = true) : StageChange net i r net' .done

theorem StageChange.of_transition (h : Transition shardFor net a net')
    (hr : net.retries[i]? = some r) (hr' : net'.retries[i]? = some r') :
    StageChange net i r net' r'.stage := by
  have hsame : net'.retries[i]? = net.retries[i]? → StageChange net i r net' r'.stage :=
    fun heq => by
      rw [Option.some.inj (hr'.symm.trans (heq.trans hr))]
      exact .same
  have hset : ∀ k d stage turn, net.retries[k]? = some d →
      net'.retries = (net.setRetry k { d with stage := stage, turn := turn }).retries →
      (r.stage = d.stage → StageChange net i r net' stage) →
      StageChange net i r net' r'.stage := by
    intro k d stage turn hd hnet hstage
    rw [hnet, getElem?_setRetry hd] at hr'
    split_ifs at hr' with hi
    · subst hi
      obtain rfl := Option.some.inj (hd.symm.trans hr)
      obtain rfl := Option.some.inj hr'
      exact hstage rfl
    · rw [Option.some.inj (hr'.symm.trans hr)]
      exact .same
  cases h with
  | client | begin | lose | close | restart => exact hsame rfl
  | @execute k f hf =>
    rcases retry_execute (net.dropFlight k) f hr with heq | ⟨turn, hreply, heq⟩
    · exact hsame (heq.trans hr.symm)
    · rw [Option.some.inj (hr'.symm.trans heq)]
      rcases stage_receiveRetry turn _ r with hstage | hstage
      · rw [hstage]
        exact .same
      · rw [hstage]
        exact .answered k f turn hf hreply rfl
  | enter =>
    obtain ⟨hi, -⟩ := List.getElem?_eq_some_iff.mp hr
    exact hsame (List.getElem?_append_left hi)
  | tick d c hd => exact hset _ d _ _ hd rfl fun _ => .calling
  | pause d hd => exact hset _ d _ d.turn hd rfl fun _ => .pausing
  | finish d hd hend =>
    refine hset _ d _ d.turn hd rfl fun heq => .done ?_
    rw [heq]
    exact hend

end Network

/-! ## Requests and their answers -/

open Network

/-- Requests and retries belong to calls, and answers go where the request came from. -/
structure Addressed (net : Network n) : Prop where
  flight : ∀ f ∈ net.flights, f.Legit net.calls
  reply : ∀ f ∈ net.flights, ∀ i turn, f.reply = .retry i turn → ∃ r c,
    net.retries[i]? = some r ∧ net.calls[r.call]? = some c ∧ f.shard = c.transfer.shard r.side ∧
      f.command = c.transfer.command .commit r.side
  retry : ∀ r ∈ net.retries, ∃ c, net.calls[r.call]? = some c ∧ c.stage.commits = true
  current : ∀ c ∈ net.calls, c.incarnation ≤ net.incarnation

namespace Addressed

variable {shardFor : String → Fin n} {net net' : Network n} {a : Action} {f : Flight n}

theorem init (maxKeys : ℕ) (balances : Fin n → Finmap fun _ : String => BitVec 64) :
    Addressed (Network.init maxKeys balances) where
  flight f h := by cases h
  reply f h := by cases h
  retry r h := by cases h
  current c h := by cases h

/-- A retry that was there before. -/
theorem retry_kept (h : Addressed net) (ho : Outcome shardFor net a net') {r : Retry}
    (hr : r ∈ net.retries) :
    ∃ c, net'.calls[r.call]? = some c ∧ c.stage.commits = true := by
  obtain ⟨c, hc, hcommits⟩ := h.retry r hr
  obtain ⟨c', hc', hadv⟩ := ho.advances hc
  exact ⟨c', hc', hadv.commits hcommits⟩

/-- A request that was in flight before. -/
theorem flight_kept (h : Addressed net) (ho : Outcome shardFor net a net') (hf : f ∈ net.flights) :
    f.Legit net'.calls ∧ ∀ i turn, f.reply = .retry i turn → ∃ r c,
      net'.retries[i]? = some r ∧ net'.calls[r.call]? = some c ∧
        f.shard = c.transfer.shard r.side ∧ f.command = c.transfer.command .commit r.side := by
  refine ⟨(h.flight f hf).mono fun _ _ => ho.advances, fun i turn hreply => ?_⟩
  obtain ⟨r, c, hr, hc, hshard, hcommand⟩ := h.reply f hf i turn hreply
  obtain ⟨r', hr', hcall, hside⟩ := ho.retries hr
  obtain ⟨c', hc', hadv⟩ := ho.advances hc
  exact ⟨r', c', hr', hcall ▸ hc', by rw [hadv.transfer, hside, hshard],
    by rw [hadv.transfer, hside, hcommand]⟩

/-- A request that is in flight. -/
theorem flight_step (h : Addressed net) (ht : Transition shardFor net a net')
    (hf : f ∈ net'.flights) :
    f.Legit net'.calls ∧ ∀ i turn, f.reply = .retry i turn → ∃ r c,
      net'.retries[i]? = some r ∧ net'.calls[r.call]? = some c ∧
        f.shard = c.transfer.shard r.side ∧ f.command = c.transfer.command .commit r.side := by
  have ho := ht.outcome
  have hrequest : ∀ j c, net'.calls[j]? = some c → f ∈ (requestOf j c).toList →
      f.Legit net'.calls ∧ ∀ i turn, f.reply ≠ .retry i turn := by
    intro j c hc hf
    have hf := Option.mem_toList.mp hf
    refine ⟨Sound.legit_requestOf hc hf, ?_⟩
    obtain ⟨x, -, rfl⟩ := Option.map_eq_some_iff.mp hf
    intro i turn hretry
    cases hretry
  cases ht with
  | client g hcall hreply hop =>
    rcases List.mem_append.mp hf with hf | hf
    · exact h.flight_kept ho hf
    · obtain rfl := List.mem_singleton.mp hf
      refine ⟨by simpa only [Flight.Legit, hcall] using hop, fun i turn hretry => ?_⟩
      cases hreply.symm.trans hretry
  | begin =>
    rcases List.mem_append.mp hf with hf | hf
    · exact h.flight_kept ho hf
    · obtain ⟨hlegit, hreply⟩ := hrequest _ _ ((getElem?_begin net _ _).trans (if_pos rfl)) hf
      exact ⟨hlegit, fun i turn hretry => absurd hretry (hreply i turn)⟩
  | execute | lose => exact h.flight_kept ho (List.mem_of_mem_eraseIdx hf)
  | enter c err hc =>
    rcases List.mem_append.mp hf with hf | hf
    · exact h.flight_kept ho hf
    · obtain ⟨hlegit, hreply⟩ := hrequest _ _ ((getElem?_enter hc _ _).trans (if_pos rfl)) hf
      exact ⟨hlegit, fun i turn hretry => absurd hretry (hreply i turn)⟩
  | @tick k r c hr hc =>
    rcases List.mem_append.mp hf with hf | hf
    · exact h.flight_kept ho hf
    · obtain rfl := List.mem_singleton.mp hf
      obtain ⟨c', hc', hcommits⟩ := h.retry r (List.mem_of_getElem? hr)
      obtain rfl := Option.some.inj (hc.symm.trans hc')
      refine ⟨⟨c, .commit, r.side, hc, rfl, rfl, hcommits, ?_⟩, fun i turn hretry => ?_⟩
      · intro turn hcall
        cases hcall
      · obtain ⟨rfl, rfl⟩ := Reply.retry.inj hretry
        exact ⟨_, c, (getElem?_setRetry hr _ _).trans (if_pos rfl), hc, rfl, rfl⟩
  | pause | finish | close | restart => exact h.flight_kept ho hf

theorem retry_step (h : Addressed net) (ht : Transition shardFor net a net') {r : Retry}
    (hr : r ∈ net'.retries) : ∃ c, net'.calls[r.call]? = some c ∧ c.stage.commits = true := by
  have ho := ht.outcome
  have hold : (∃ r' ∈ net.retries, r'.call = r.call) →
      ∃ c, net'.calls[r.call]? = some c ∧ c.stage.commits = true := by
    rintro ⟨r', hr', hcall⟩
    rw [← hcall]
    exact h.retry_kept ho hr'
  cases ht with
  | client | begin | lose | close | restart => exact hold ⟨r, hr, rfl⟩
  | execute f hf => exact hold (retry_of_execute hr)
  | enter c err hc =>
    rcases List.mem_append.mp hr with hr | hr
    · exact hold ⟨r, hr, rfl⟩
    · split_ifs at hr
      · cases hr
      · obtain ⟨side, hside, rfl⟩ := List.mem_map.mp hr
        exact ⟨_, (getElem?_enter hc _ _).trans (if_pos rfl), Stage.commits_of_undelivered hside⟩
  | tick d c hd => exact hold (retry_of_setRetry hr hd rfl)
  | pause d hd => exact hold (retry_of_setRetry hr hd rfl)
  | finish d hd => exact hold (retry_of_setRetry hr hd rfl)

theorem current_step (h : Addressed net) (ht : Transition shardFor net a net') {c' : Call n}
    (hc' : c' ∈ net'.calls) : c'.incarnation ≤ net'.incarnation := by
  obtain ⟨j, hj⟩ := List.mem_iff_getElem?.mp hc'
  have hle : net.incarnation ≤ net'.incarnation := by
    cases ht with
    | restart => exact Nat.le_succ _
    | client | begin | execute | lose | enter | tick | pause | finish | close => exact le_rfl
  rcases ht.outcome.origin hj with ⟨c, hc, -⟩ | ⟨-, -, -, -, -, -, rfl⟩
  · rw [ht.outcome.incarnation hc hj]
    exact (h.current c (List.mem_of_getElem? hc)).trans hle
  · exact hle

theorem step (h : Addressed net) (hs : net.step shardFor a = some net') : Addressed net' := by
  have ht := Transition.of_step hs
  exact ⟨fun f hf => (h.flight_step ht hf).1, fun f hf => (h.flight_step ht hf).2,
    fun r hr => h.retry_step ht hr, fun c hc => h.current_step ht hc⟩

end Addressed

/-! ## What the shards have decided -/

/-- The shard of one half has decided the transaction. -/
def Network.Decided (net : Network n) (t : Transfer n) (side : Side) : Prop :=
  (net.shards (t.shard side)).decided.lookup t.tx ≠ none

/-- The shard of one half has voted YES to the prepare of call `j`. -/
def Network.Accepted (net : Network n) (j : ℕ) (t : Transfer n) (side : Side) : Prop :=
  ∃ e ∈ net.history, e.call = some j ∧ e.shard = t.shard side ∧
    e.command = t.command .prepare side ∧ (e.before.applyLocked e.command).2.err = none

instance (net : Network n) (j : ℕ) (t : Transfer n) (side : Side) :
    Decidable (net.Accepted j t side) :=
  inferInstanceAs (Decidable (∃ e ∈ net.history, _))

/-- What `tx` is prepared with at a shard was accepted from a call. -/
def Network.Explained (net : Network n) (s : Fin n) (tx : String) : Prop :=
  ∃ (j : ℕ) (c : Call n) (side : Side), net.calls[j]? = some c ∧ c.transfer.tx = tx ∧
    c.transfer.shard side = s ∧ net.Accepted j c.transfer side

/-- The machines are in order, what is prepared was accepted from a call, and what has been aborted
is decided. -/
structure Known (net : Network n) : Prop where
  paired : ∀ s, (net.shards s).Paired
  decisive : ∀ s, (net.shards s).Decisive
  prepared : ∀ s tx, (net.shards s).prepared.lookup tx ≠ none → net.Explained s tx
  aborted : ∀ e ∈ net.history, e.command.op = .abort →
    (net.shards e.shard).decided.lookup e.command.tx ≠ none

namespace Known

variable {shardFor : String → Fin n} {net net' : Network n} {a : Action} {f : Flight n}

theorem init (maxKeys : ℕ) (balances : Fin n → Finmap fun _ : String => BitVec 64) :
    Known (Network.init maxKeys balances) where
  paired s k tx := by simp [Network.init, Machine.new]
  decisive s := ⟨fun _ _ => rfl, fun tx op h => by simp [Network.init, Machine.new] at h⟩
  prepared s tx h := by simp [Network.init, Machine.new] at h
  aborted e h := by cases h

/-- An execution applies the command at one shard. -/
theorem shards_execute (net : Network n) (f : Flight n) (s : Fin n) :
    (net.execute f).shards s = net.shards s ∨
      s = f.shard ∧ (net.execute f).shards s = ((net.shards s).applyLocked f.command).1 := by
  by_cases hs : s = f.shard
  · subst hs
    exact .inr ⟨rfl, Function.update_self ..⟩
  · exact .inl (Function.update_of_ne hs ..)

theorem decided_execute (h : Known net) (f : Flight n) {s : Fin n} {tx : String}
    (hd : (net.shards s).decided.lookup tx ≠ none) :
    ((net.execute f).shards s).decided.lookup tx ≠ none := by
  rcases shards_execute net f s with heq | ⟨-, heq⟩
  · rwa [heq]
  · obtain ⟨op, hop⟩ := Option.ne_none_iff_exists'.mp hd
    rw [heq, ((net.shards s).effect f.command).decided (h.decisive s) hop]
    exact Option.some_ne_none op

theorem dropFlight (h : Known net) (i : ℕ) : Known (net.dropFlight i) :=
  ⟨h.paired, h.decisive, h.prepared, h.aborted⟩

/-- **A decision stands.** -/
theorem decided_step (h : Known net) (ho : Outcome shardFor net a net') {s : Fin n} {tx : String}
    (hd : (net.shards s).decided.lookup tx ≠ none) :
    (net'.shards s).decided.lookup tx ≠ none := by
  rcases ho.shards with ⟨hshards, -⟩ | ⟨i, f, -, rfl⟩
  · rwa [hshards]
  · exact (h.dropFlight i).decided_execute f hd

/-- The call of a request of two-phase commit. -/
theorem call_of_legit (hf : f.Legit net.calls) (hop : f.command.op.ofTx = true) :
    ∃ (j : ℕ) (c : Call n) (side : Side), net.calls[j]? = some c ∧ f.call = some j ∧
      f.shard = c.transfer.shard side ∧ f.command = c.transfer.command f.command.op side := by
  unfold Flight.Legit at hf
  cases hcall : f.call with
  | none =>
    simp only [hcall] at hf
    rw [hf] at hop
    cases hop
  | some j =>
    simp only [hcall] at hf
    obtain ⟨c, op, side, hc, hshard, hcommand, -, -⟩ := hf
    exact ⟨j, c, side, hc, rfl, hshard, by rw [hcommand, Transfer.command_op]⟩

/-- An explanation stands when calls go on and the history grows. -/
theorem explained_mono {s : Fin n} {tx : String} (h : net.Explained s tx)
    (hcalls : ∀ (j : ℕ) c, net.calls[j]? = some c →
      ∃ c', net'.calls[j]? = some c' ∧ c'.transfer = c.transfer)
    (hhistory : net.history ⊆ net'.history) : net'.Explained s tx := by
  obtain ⟨j, c, side, hc, htx, hs, e, he, haccepted⟩ := h
  obtain ⟨c', hc', htransfer⟩ := hcalls j c hc
  exact ⟨j, c', side, hc', htransfer ▸ htx, htransfer ▸ hs, e, hhistory he,
    htransfer ▸ haccepted⟩

theorem execute (h : Known net) (hf : f.Legit net.calls) : Known (net.execute f) := by
  refine ⟨fun s => ?_, fun s => ?_, fun s tx hp => ?_, fun e he hop => ?_⟩
  · rcases shards_execute net f s with heq | ⟨-, heq⟩
    · exact heq ▸ h.paired s
    · exact heq ▸ ((net.shards s).effect f.command).paired (h.paired s)
  · rcases shards_execute net f s with heq | ⟨-, heq⟩
    · exact heq ▸ h.decisive s
    · exact heq ▸ (h.decisive s).applyLocked f.command
  · have hkeep : net.Explained s tx → (net.execute f).Explained s tx := by
      refine fun hold => explained_mono hold (fun j c hc => ?_) (List.subset_cons_self _ _)
      obtain ⟨c', hc', hadv⟩ := advances_execute net f hc
      exact ⟨c', hc', hadv.transfer⟩
    rcases shards_execute net f s with heq | ⟨rfl, heq⟩
    · exact hkeep (h.prepared s tx (heq ▸ hp))
    · rw [heq] at hp
      rcases ((net.shards f.shard).effect f.command).prepared_of_ne_none hp with
        hold | ⟨hop, rfl, hyes⟩
      · exact hkeep (h.prepared _ tx hold)
      · obtain ⟨j, c, side, hc, hcall, hshard, hcommand⟩ := call_of_legit hf (by rw [hop]; rfl)
        rw [hop] at hcommand
        obtain ⟨c', hc', hadv⟩ := advances_execute net f hc
        refine ⟨j, c', side, hc', ?_, ?_, _, List.mem_cons_self, hcall, ?_, ?_, hyes⟩
        · rw [hadv.transfer, hcommand, Transfer.command_tx]
        · rw [hadv.transfer, hshard]
        · rw [hadv.transfer, hshard]
        · rw [hadv.transfer, hcommand]
  · rcases List.mem_cons.mp he with rfl | he
    · simp only [Network.execute, Function.update_self]
      rw [Machine.decided_of_abort _ hop rfl]
      exact Option.some_ne_none _
    · exact h.decided_execute f (h.aborted e he hop)

theorem step (h : Known net) (haddressed : Addressed net) (ho : Outcome shardFor net a net') :
    Known net' := by
  rcases ho.shards with ⟨hshards, hhistory⟩ | ⟨i, f, hf, rfl⟩
  · refine ⟨hshards ▸ h.paired, hshards ▸ h.decisive, fun s tx hp => ?_, fun e he hop => ?_⟩
    · rw [hshards] at hp
      refine explained_mono (h.prepared s tx hp) (fun j c hc => ?_) (hhistory ▸ List.Subset.refl _)
      obtain ⟨c', hc', hadv⟩ := ho.advances hc
      exact ⟨c', hc', hadv.transfer⟩
    · rw [hshards]
      exact h.aborted e (hhistory ▸ he) hop
  · exact (h.dropFlight i).execute (haddressed.flight f (List.mem_of_getElem? hf))

/-- A transaction that is not prepared holds no account. -/
theorem free_of_not_prepared (h : Known net) {s : Fin n} {tx : String}
    (hp : (net.shards s).prepared.lookup tx = none) (k : String) :
    (net.shards s).locks.lookup k ≠ some tx := by
  intro hlock
  obtain ⟨p, hp', -⟩ := (h.paired s k tx).mp hlock
  exact absurd (hp'.symm.trans hp) nofun

end Known

/-! ## What calls and retries have been told -/

/-- Commits that calls and retries have seen answered are decided, and a commit that was not
delivered has a retry. -/
structure Told (net : Network n) : Prop where
  delivered : ∀ (j : ℕ) (c : Call n) (side : Side), net.calls[j]? = some c →
    c.delivered side = true → net.Decided c.transfer side
  retried : ∀ (j : ℕ) (c : Call n) (side : Side), net.calls[j]? = some c →
    side ∈ c.stage.undelivered → c.incarnation = net.incarnation → net.closed = false →
    ∃ r ∈ net.retries, r.call = j ∧ r.side = side
  answered : ∀ (i : ℕ) (r : Retry) (c : Call n), net.retries[i]? = some r →
    net.calls[r.call]? = some c → r.stage = .calling (some none) → net.Decided c.transfer r.side
  ended : ∀ (i : ℕ) (r : Retry) (c : Call n), net.retries[i]? = some r →
    net.calls[r.call]? = some c → r.stage = .done → c.incarnation = net.incarnation →
    net.closed = false → net.Decided c.transfer r.side

namespace Told

variable {shardFor : String → Fin n} {net net' : Network n} {a : Action} {f : Flight n} {i j : ℕ}
  {c c' : Call n} {r r' : Retry} {side : Side}

theorem init (maxKeys : ℕ) (balances : Fin n → Finmap fun _ : String => BitVec 64) :
    Told (Network.init maxKeys balances) where
  delivered j c side h := by simp [Network.init] at h
  retried j c side h := by simp [Network.init] at h
  answered i r c h := by simp [Network.init] at h
  ended i r c h := by simp [Network.init] at h

/-- A commit that is executed and answered with OK is decided. -/
theorem decided_now (net : Network n) (f : Flight n) {t : Transfer n}
    (hshard : f.shard = t.shard side) (hcommand : f.command = t.command .commit side)
    (herr : ((net.shards f.shard).applyLocked f.command).2.err = none) :
    (net.execute f).Decided t side := by
  have hdecided := ((net.shards f.shard).effect f.command).decided_of_commit
    (by rw [hcommand, Transfer.command_op]) (Result.err_eq_none_iff.mp herr)
  rw [hcommand, Transfer.command_tx] at hdecided
  rw [Network.Decided, ← hshard, Network.execute]
  simp only [Function.update_self]
  rw [hcommand]
  exact hdecided

theorem delivered_step (h : Told net) (hknown : Known net) (haddressed : Addressed net)
    (ht : Transition shardFor net a net') (hc' : net'.calls[j]? = some c')
    (hd : c'.delivered side = true) : net'.Decided c'.transfer side := by
  have ho := ht.outcome
  have hold : ∀ c, net.calls[j]? = some c → c.delivered side = true →
      net'.Decided c'.transfer side := by
    intro c hc hdelivered
    obtain ⟨c'', hc'', hadv⟩ := ho.advances hc
    obtain rfl := Option.some.inj (hc''.symm.trans hc')
    rw [Network.Decided, hadv.transfer]
    exact hknown.decided_step ho (h.delivered j c side hc hdelivered)
  cases ht with
  | client | lose | tick | pause | finish | close | restart => exact hold c' hc' hd
  | begin =>
    rw [getElem?_begin] at hc'
    split_ifs at hc' with hj
    · obtain rfl := Option.some.inj hc'
      simp [Call.delivered] at hd
    · exact hold c' hc' hd
  | @execute k f hf =>
    rcases getElem?_execute (net.dropFlight k) f j with heq | ⟨turn, hcall, hreply, heq⟩
    · exact hold c' (heq.symm.trans hc') hd
    · obtain ⟨c, hc, rfl⟩ := Option.map_eq_some_iff.mp (heq.symm.trans hc')
      rcases Call.delivered_of_receive hd with hd | ⟨herr, hturn, hreq⟩
      · exact hold c hc hd
      · have hlegit := haddressed.flight f (List.mem_of_getElem? hf)
        unfold Flight.Legit at hlegit
        simp only [hcall] at hlegit
        obtain ⟨d, op, side', hd', hshard, hcommand, -, hrequest⟩ := hlegit
        obtain rfl := Option.some.inj (hc.symm.trans hd')
        have hsame := ((hrequest turn hreply).2 hturn.symm).symm.trans hreq
        obtain ⟨rfl, rfl⟩ := Prod.mk.inj (Option.some.inj hsame)
        rw [(Call.Advances.receive c _ _).transfer]
        exact decided_now (net.dropFlight k) f hshard hcommand herr
  | @enter _ k c err hc _ herr =>
    rw [getElem?_enter hc] at hc'
    split_ifs at hc' with hk
    · subst hk
      obtain rfl := Option.some.inj hc'
      exact hold c hc (Call.delivered_of_next herr hd)
    · exact hold c' hc' hd

/-- The coordinator of a call was there before, and it was not closed. -/
theorem open_before (haddressed : Addressed net) (ht : Transition shardFor net a net')
    (hc : net.calls[j]? = some c) (hincarnation : c.incarnation = net'.incarnation)
    (hopen : net'.closed = false) : c.incarnation = net.incarnation ∧ net.closed = false := by
  have hle := haddressed.current c (List.mem_of_getElem? hc)
  cases ht with
  | client | begin | execute | lose | enter | tick | pause | finish =>
    exact ⟨hincarnation, hopen⟩
  | close => cases hopen
  | restart =>
    simp only at hincarnation
    omega

theorem retried_step (h : Told net) (haddressed : Addressed net)
    (ht : Transition shardFor net a net') (hc' : net'.calls[j]? = some c')
    (hside : side ∈ c'.stage.undelivered) (hincarnation : c'.incarnation = net'.incarnation)
    (hopen : net'.closed = false) : ∃ r ∈ net'.retries, r.call = j ∧ r.side = side := by
  have ho := ht.outcome
  have hold : ∀ c, net.calls[j]? = some c → c'.stage = c.stage →
      ∃ r ∈ net'.retries, r.call = j ∧ r.side = side := by
    intro c hc hstage
    rw [ho.incarnation hc hc'] at hincarnation
    obtain ⟨hincarnation, hopen⟩ := open_before haddressed ht hc hincarnation hopen
    obtain ⟨r, hr, rfl, rfl⟩ := h.retried j c side hc (hstage ▸ hside) hincarnation hopen
    obtain ⟨i, hi⟩ := List.mem_iff_getElem?.mp hr
    obtain ⟨r', hr', hcall, hside⟩ := ho.retries hi
    exact ⟨r', List.mem_of_getElem? hr', hcall, hside⟩
  cases ht with
  | client | lose | tick | pause | finish | close | restart => exact hold c' hc' rfl
  | begin =>
    rw [getElem?_begin] at hc'
    split_ifs at hc' with hj
    · obtain rfl := Option.some.inj hc'
      cases hside
    · exact hold c' hc' rfl
  | @execute k f hf =>
    rcases getElem?_execute (net.dropFlight k) f j with heq | ⟨turn, -, -, heq⟩
    · exact hold c' (heq.symm.trans hc') rfl
    · obtain ⟨c, hc, rfl⟩ := Option.map_eq_some_iff.mp (heq.symm.trans hc')
      refine hold c hc ?_
      unfold receive
      split_ifs <;> rfl
  | @enter _ k c err hc =>
    rw [getElem?_enter hc] at hc'
    split_ifs at hc' with hk
    · obtain rfl := Option.some.inj hc'
      have hclosed : net.closed = false := hopen
      refine ⟨⟨k, side, .pausing, 0, net.incarnation⟩, List.mem_append_right _ ?_, hk.symm, rfl⟩
      rw [hclosed]
      exact List.mem_map_of_mem hside
    · exact hold c' hc' rfl

/-- A retry was there before, or it waits for its ticker. -/
theorem retry_origin (ht : Transition shardFor net a net') (hr' : net'.retries[i]? = some r') :
    (∃ r, net.retries[i]? = some r) ∨ r'.stage = .pausing := by
  obtain ⟨hi, hget⟩ := List.getElem?_eq_some_iff.mp hr'
  have hold : net'.retries.length = net.retries.length → ∃ r, net.retries[i]? = some r :=
    fun hlen => ⟨_, List.getElem?_eq_getElem (hlen ▸ hi)⟩
  cases ht with
  | client | begin | lose | close | restart => exact .inl (hold rfl)
  | execute f =>
    refine .inl (hold ?_)
    unfold Network.execute
    dsimp only
    split
    · exact List.length_modify ..
    · rfl
  | enter c err hc =>
    rcases Nat.lt_or_ge i net.retries.length with hlt | hge
    · exact .inl ⟨_, List.getElem?_eq_getElem hlt⟩
    · have hr' := (List.getElem?_append_right hge).symm.trans hr'
      have hnew := List.mem_of_getElem? hr'
      split_ifs at hnew
      · cases hnew
      · obtain ⟨side, -, rfl⟩ := List.mem_map.mp hnew
        exact .inr rfl
  | tick | pause | finish => exact .inl (hold (List.length_set ..))

/-- What a retry that has its answer, or has ended, is right about. -/
theorem retry_step (h : Told net) (hknown : Known net) (haddressed : Addressed net)
    (ht : Transition shardFor net a net') (hr' : net'.retries[i]? = some r')
    (hc' : net'.calls[r'.call]? = some c')
    (hstage : r'.stage = .calling (some none) ∨ r'.stage = .done ∧
      c'.incarnation = net'.incarnation ∧ net'.closed = false) :
    net'.Decided c'.transfer r'.side := by
  have ho := ht.outcome
  rcases retry_origin ht hr' with ⟨r, hr⟩ | hpausing
  · obtain ⟨r'', hr'', hcall, hside⟩ := ho.retries hr
    obtain rfl := Option.some.inj (hr''.symm.trans hr')
    obtain ⟨c, hc, -⟩ := haddressed.retry r (List.mem_of_getElem? hr)
    obtain ⟨c'', hc'', hadv⟩ := ho.advances hc
    obtain rfl := Option.some.inj (hc''.symm.trans (hcall ▸ hc'))
    have hincarnation := ho.incarnation hc hc''
    have hold : net.Decided c.transfer r.side → net'.Decided c''.transfer r''.side := by
      intro hd
      rw [Network.Decided, hadv.transfer, hside]
      exact hknown.decided_step ho hd
    have hopen : c''.incarnation = net'.incarnation ∧ net'.closed = false →
        c.incarnation = net.incarnation ∧ net.closed = false := fun hnow =>
      open_before haddressed ht hc (hincarnation ▸ hnow.1) hnow.2
    have hchange := StageChange.of_transition ht hr hr'
    generalize r''.stage = stage at hchange hstage
    cases hchange with
    | same =>
      rcases hstage with hanswered | ⟨hdone, hnow⟩
      · exact hold (h.answered i r c hr hc hanswered)
      · obtain ⟨hcurrent, hclosed⟩ := hopen hnow
        exact hold (h.ended i r c hr hc hdone hcurrent hclosed)
    | pausing | calling => simp at hstage
    | answered k f turn hf hreply hnet' =>
      simp only [RetryStage.calling.injEq, Option.some.injEq, reduceCtorEq, false_and,
        or_false] at hstage
      obtain ⟨d, e, hd, he, hshard, hcommand⟩ :=
        haddressed.reply f (List.mem_of_getElem? hf) i turn hreply
      obtain rfl := Option.some.inj (hr.symm.trans hd)
      obtain rfl := Option.some.inj (hc.symm.trans he)
      rw [hnet', hadv.transfer, hside]
      exact decided_now (net.dropFlight k) f hshard hcommand hstage
    | done hend =>
      simp only [reduceCtorEq, true_and, false_or] at hstage
      obtain ⟨-, hclosed⟩ := hopen hstage
      rcases hend with hanswered | hend
      · exact hold (h.answered i r c hr hc hanswered)
      · exact absurd (hclosed.symm.trans hend) nofun
  · rw [hpausing] at hstage
    simp at hstage

theorem step (h : Told net) (hknown : Known net) (haddressed : Addressed net)
    (ht : Transition shardFor net a net') : Told net' where
  delivered _ _ _ hc hd := h.delivered_step hknown haddressed ht hc hd
  retried _ _ _ hc hside hincarnation hopen :=
    h.retried_step haddressed ht hc hside hincarnation hopen
  answered _ _ _ hr hc hstage := h.retry_step hknown haddressed ht hr hc (.inl hstage)
  ended _ _ _ hr hc hstage hincarnation hopen :=
    h.retry_step hknown haddressed ht hr hc (.inr ⟨hstage, hincarnation, hopen⟩)

end Told

/-! ## After the transfer -/

namespace Network

variable {shardFor : String → Fin n} {net : Network n} {j : ℕ} {c : Call n} {acts : List Action}

/-- The abort of one half of a transfer has been applied. -/
def Aborted (net : Network n) (j : ℕ) (t : Transfer n) (side : Side) : Prop :=
  ∃ e ∈ net.history,
    e.call = some j ∧ e.shard = t.shard side ∧ e.command = t.command .abort side

instance (net : Network n) (j : ℕ) (t : Transfer n) (side : Side) :
    Decidable (net.Aborted j t side) :=
  inferInstanceAs (Decidable (∃ e ∈ net.history, _))

/-- Both halves of a transfer that has returned are decided, that of an abort where it has been
applied. -/
theorem decided_of_returned (hknown : Known net) (htold : Told net) (hc : net.calls[j]? = some c)
    {ending : Ending} (hret : c.stage = .returned ending) (hincarnation : c.incarnation =
      net.incarnation) (hopen : net.closed = false)
    (hretries : ∀ r ∈ net.retries, r.call = j → r.stage = .done) {side : Side}
    (haborted : c.stage.aborts = true → net.Aborted j c.transfer side) :
    net.Decided c.transfer side := by
  rw [hret] at haborted
  cases ending with
  | committed => exact htold.delivered j c side hc (by simp [Call.delivered, hret])
  | inDoubt undelivered =>
    by_cases hside : side ∈ undelivered
    · obtain ⟨r, hr, rfl, rfl⟩ := htold.retried j c side hc (by rw [hret]; exact hside)
        hincarnation hopen
      obtain ⟨i, hi⟩ := List.mem_iff_getElem?.mp hr
      exact htold.ended i r c hi hc (hretries r hr rfl) hincarnation hopen
    · exact htold.delivered j c side hc (by simp [Call.delivered, hret, hside])
  | refused refusal =>
    obtain ⟨e, he, -, hshard, hcommand⟩ := haborted rfl
    have hdecided := hknown.aborted e he (by rw [hcommand, Transfer.command_op])
    rw [hshard, hcommand, Transfer.command_tx] at hdecided
    exact hdecided

/-- **No orphaned locks**: when a transfer has returned, none of its retries is running and its
coordinator has not been closed, no shard has its transaction prepared or an account locked by it,
provided that a shard that had voted YES has applied the abort, if that was the decision. The only
locks that may go by its name are those of another transfer, at a shard that has not voted YES to
this one, was not told to commit it, and has voted YES to the other. -/
theorem no_orphans {maxKeys : ℕ} {balances : Fin n → Finmap fun _ : String => BitVec 64}
    (hrun : Run (step shardFor) always (init maxKeys balances) acts net)
    (hc : net.calls[j]? = some c) {ending : Ending} (hret : c.stage = .returned ending)
    (hincarnation : c.incarnation = net.incarnation) (hopen : net.closed = false)
    (hretries : ∀ r ∈ net.retries, r.call = j → r.stage = .done) {s : Fin n}
    (haborted : c.stage.aborts = true → ∀ side, c.transfer.shard side = s →
      net.Accepted j c.transfer side → net.Aborted j c.transfer side) :
    ((net.shards s).prepared.lookup c.transfer.tx = none ∧
      ∀ k, (net.shards s).locks.lookup k ≠ some c.transfer.tx) ∨
    (∀ side, c.transfer.shard side = s →
      c.stage.aborts = true ∧ ¬net.Accepted j c.transfer side) ∧
    ∃ (i : ℕ) (d : Call n) (side : Side), i ≠ j ∧ net.calls[i]? = some d ∧
      d.transfer.tx = c.transfer.tx ∧ d.transfer.shard side = s ∧
      net.Accepted i d.transfer side := by
  obtain ⟨haddressed, hknown, htold⟩ : Addressed net ∧ Known net ∧ Told net := by
    refine hrun.invariant (I := fun net => Addressed net ∧ Known net ∧ Told net)
      (fun net a net' h _ hs => ?_)
      ⟨.init maxKeys balances, .init maxKeys balances, .init maxKeys balances⟩
    obtain ⟨haddressed, hknown, htold⟩ := h
    have ht := Transition.of_step hs
    exact ⟨haddressed.step hs, hknown.step haddressed ht.outcome, htold.step hknown haddressed ht⟩
  by_cases hp : (net.shards s).prepared.lookup c.transfer.tx = none
  · exact .inl ⟨hp, hknown.free_of_not_prepared hp⟩
  -- the name is prepared at the shard, so the shard has decided nothing under it
  have hunvoted : ∀ side, c.transfer.shard side = s →
      c.stage.aborts = true ∧ ¬net.Accepted j c.transfer side := by
    intro side hs
    have hundecided : ¬(c.stage.aborts = true → net.Aborted j c.transfer side) := by
      intro happlied
      have hdecided :=
        decided_of_returned hknown htold hc hret hincarnation hopen hretries happlied
      rw [Network.Decided, hs] at hdecided
      exact hdecided ((hknown.decisive s).exclusive _ hp)
    obtain ⟨haborts, hlost⟩ := Classical.not_imp.mp hundecided
    exact ⟨haborts, fun haccepted => hlost (haborted haborts side hs haccepted)⟩
  obtain ⟨i, d, side, hd, htx, hs, haccepted⟩ := hknown.prepared s _ hp
  refine .inr ⟨hunvoted, i, d, side, ?_, hd, htx, hs, haccepted⟩
  rintro rfl
  obtain rfl := Option.some.inj (hc.symm.trans hd)
  exact (hunvoted side hs).2 haccepted

/-- The commit that was not delivered is delivered by the retry. -/
def deliveredLater : List Action := halfCommitted ++ [.tick 0, .execute 0, .answerRetry 0]

/-- The number of shards in the examples. -/
local instance : NeZero 4 := ⟨by decide⟩

/-- The transfer of `halfCommitted`, at its end. -/
def halfCall : Call 4 :=
  ⟨⟨"tx1", 0, "A", 1, "B", 30⟩, .returned (.inDoubt [.target]), 4, none, 0⟩

/-- The second prepare is lost, the abort of the first applied, and that of the second lost. -/
def abortedOnce : List Action :=
  [.transfer "A" "B" 30, .execute 0, .answer 0, .lose 0, .fail 0 "timeout", .execute 0, .answer 0,
    .lose 0, .fail 0 "timeout"]

/-- The transfer of `abortedOnce`, at its end. -/
def abortedCall : Call 4 :=
  ⟨⟨"tx1", 0, "A", 1, "B", 30⟩, .returned (.refused "s1 voted NO: timeout"), 4, none, 0⟩

/-- Where no other transfer is, the second case of `no_orphans` does not arise. -/
theorem eq_zero_of_calls {net : Network 4} {c : Call 4} (hcalls : net.calls = [c]) {i : ℕ}
    {d : Call 4} (hd : net.calls[i]? = some d) : i = 0 := by
  obtain ⟨hi, -⟩ := List.getElem?_eq_some_iff.mp hd
  rw [hcalls] at hi
  exact Nat.lt_one_iff.mp hi

theorem no_orphans_later :
    (∃ net : Network 4, Run (step fourShards) always (init 0 hundreds) deliveredLater net ∧
      ∀ s k, (net.shards s).locks.lookup k ≠ some "tx1") ∧
    ∃ net : Network 4, Run (step fourShards) always (init 0 hundreds) abortedOnce net ∧
      ¬net.Aborted 0 abortedCall.transfer .target ∧
      ∀ s k, (net.shards s).locks.lookup k ≠ some "tx1" := by
  constructor
  · obtain ⟨net, hrun, hend⟩ := Run.exists_of_exec_map (step fourShards) always (init 0 hundreds)
      deliveredLater (fun net => (net.calls, net.incarnation, net.closed, net.retries))
      ([halfCall], 0, false, [⟨0, .target, .done, 1, 0⟩]) (by decide +kernel)
    obtain ⟨hcalls, hend⟩ := Prod.mk.inj hend
    obtain ⟨hincarnation, hend⟩ := Prod.mk.inj hend
    obtain ⟨hclosed, hretries⟩ := Prod.mk.inj hend
    have hc : net.calls[0]? = some halfCall := by rw [hcalls]; rfl
    have hdone : ∀ r ∈ net.retries, r.call = 0 → r.stage = .done := by simp [hretries]
    refine ⟨net, hrun, fun s => ?_⟩
    rcases no_orphans hrun hc rfl hincarnation.symm hclosed hdone (s := s)
      (fun haborts => by cases haborts) with h | ⟨-, i, d, side, hi, hd, -⟩
    · exact h.2
    · exact absurd (eq_zero_of_calls hcalls hd) hi
  · obtain ⟨net, hrun, hend⟩ := Run.exists_of_exec_map (step fourShards) always (init 0 hundreds)
      abortedOnce (fun net => ((net.calls, net.incarnation, net.closed, net.retries),
        decide (net.Aborted 0 abortedCall.transfer .source ∧
          ¬net.Accepted 0 abortedCall.transfer .target ∧
          ¬net.Aborted 0 abortedCall.transfer .target)))
      (([abortedCall], 0, false, []), true) (by decide +kernel)
    obtain ⟨hend, hparts⟩ := Prod.mk.inj hend
    obtain ⟨hcalls, hend⟩ := Prod.mk.inj hend
    obtain ⟨hincarnation, hend⟩ := Prod.mk.inj hend
    obtain ⟨hclosed, hretries⟩ := Prod.mk.inj hend
    obtain ⟨hsource, hunvoted, hlost⟩ := of_decide_eq_true hparts
    have hc : net.calls[0]? = some abortedCall := by rw [hcalls]; rfl
    have hdone : ∀ r ∈ net.retries, r.call = 0 → r.stage = .done := by simp [hretries]
    have haborted : ∀ side, net.Accepted 0 abortedCall.transfer side →
        net.Aborted 0 abortedCall.transfer side := by
      intro side haccepted
      cases side with
      | source => exact hsource
      | target => exact absurd haccepted hunvoted
    refine ⟨net, hrun, hlost, fun s => ?_⟩
    rcases no_orphans hrun hc rfl hincarnation.symm hclosed hdone (s := s)
      (fun _ side _ => haborted side) with h | ⟨-, i, d, side, hi, hd, -⟩
    · exact h.2
    · exact absurd (eq_zero_of_calls hcalls hd) hi

/-- The second prepare is lost, and so is the abort of the first. -/
def lostAbort : List Action :=
  [.transfer "A" "B" 30, .execute 0, .answer 0, .lose 0, .fail 0 "timeout", .lose 0,
    .fail 0 "timeout", .execute 0, .answer 0]

/-- **A lock lingers** when the abort is lost. The transfer has returned, the coordinator is not
closed, and no request or retry is left. -/
theorem lock_lingers :
    ∃ net : Network 4, Run (step fourShards) always (init 0 hundreds) lostAbort net ∧
      net.calls.map Call.stage = [.returned (.refused "s1 voted NO: timeout")] ∧
      net.closed = false ∧ net.retries = [] ∧ net.flights = [] ∧
      (net.shards 0).locks.lookup "A" = some "tx1" ∧
      (net.shards 0).prepared.lookup "tx1" ≠ none := by
  obtain ⟨net, hrun, hend⟩ := Run.exists_of_exec_map (step fourShards) always (init 0 hundreds)
    lostAbort (fun net => decide (net.calls.map Call.stage =
      [.returned (.refused "s1 voted NO: timeout")] ∧
      net.closed = false ∧ net.retries = [] ∧ net.flights = [] ∧
      (net.shards 0).locks.lookup "A" = some "tx1" ∧
      (net.shards 0).prepared.lookup "tx1" ≠ none)) true (by decide +kernel)
  exact ⟨net, hrun, of_decide_eq_true hend⟩

end Network

end PaxosPayments.ControlPlane
