import PaxosPayments.ControlPlane.Coordinator
import Mathlib.Data.Fintype.BigOperators

/-!
# Atomicity of transfers between shards

A transaction is known to the shards by its name only. As long as no two transfers of one name share
a shard, what a shard knows about a transaction comes from the one call that has it there, and
`Sound` ties the phase of the transaction at its two shards to the stage of that call: once the
decision is COMMIT each of them is prepared or committed, and none is ever aborted.
-/

namespace PaxosPayments.ControlPlane

variable {n : ℕ}

/-- The participant of that half has voted YES, and the call knows it. -/
def Call.voted (c : Call n) (side : Side) : Bool :=
  match c.stage, side with
  | .prepare .source, .source => c.answer = some none
  | .prepare .source, .target => false
  | .prepare .target, .source => true
  | .prepare .target, .target => c.answer = some none
  | stage, _ => stage.commits

/-- What the shard of one half may know about the transaction of a call. -/
def Call.allows (c : Call n) (side : Side) : Phase → Prop
  | .idle => True
  | .prepared p => p = c.transfer.command .prepare side
  | .committed => c.stage.commits = true
  | .aborted => c.stage.aborts = true

/-- The requests that may be in flight for a call. -/
def Call.sends (c : Call n) : Op → Prop
  | .prepare => True
  | .commit => c.stage.commits = true
  | .abort => c.stage.aborts = true
  | .put | .get | .transfer | .other _ => False

/-- The request is one of its call, and the answer goes to the stage that has sent it. -/
def Flight.Legit (calls : List (Call n)) (f : Flight n) : Prop :=
  match f.call with
  | none => f.command.op.ofTx = false
  | some j => ∃ c op side, calls[j]? = some c ∧ f.shard = c.transfer.shard side ∧
      f.command = c.transfer.command op side ∧ c.sends op ∧
      ∀ turn, f.reply = .call turn →
        turn ≤ c.turn ∧ (turn = c.turn → c.stage.request = some (op, side))

/-- No two transfers of one name share a shard. -/
def Apart (transfers : List (Transfer n)) : Prop :=
  ∀ (j j' : ℕ) (t t' : Transfer n) (side side' : Side), transfers[j]? = some t →
    transfers[j']? = some t' → t.tx = t'.tx → t.shard side = t'.shard side' → j = j' ∧ side = side'

theorem Apart.concat {transfers : List (Transfer n)} {t : Transfer n} (h : Apart transfers)
    (hne : t.source ≠ t.target)
    (hfree : ∀ t' ∈ transfers, t'.tx = t.tx → ∀ side side', t'.shard side ≠ t.shard side') :
    Apart (transfers ++ [t]) := by
  intro j j' u u' side side' hu hu' htx hshard
  rcases Table.getElem?_concat_eq_some.mp hu with hold | ⟨rfl, rfl⟩ <;>
    rcases Table.getElem?_concat_eq_some.mp hu' with hold' | ⟨rfl, rfl⟩
  · exact h j j' u u' side side' hold hold' htx hshard
  · exact absurd hshard (hfree u (List.mem_of_getElem? hold) htx side side')
  · exact absurd hshard.symm (hfree u' (List.mem_of_getElem? hold') htx.symm side' side)
  · refine ⟨rfl, ?_⟩
    cases side <;> cases side' <;> simp_all [Transfer.shard, eq_comm]

/-- What the shards know about a transaction is what its call has told them. -/
structure Sound (net : Network n) : Prop where
  exclusive : ∀ s, (net.shards s).Exclusive
  apart : Apart net.transfers
  flight : ∀ f ∈ net.flights, f.Legit net.calls
  retry : ∀ r ∈ net.retries, ∃ c, net.calls[r.call]? = some c ∧ c.stage.commits = true
  vote : ∀ (j : ℕ) (c : Call n) (side : Side), net.calls[j]? = some c → c.voted side = true →
    (net.shards (c.transfer.shard side)).phase c.transfer.tx =
        .prepared (c.transfer.command .prepare side) ∨
      (net.shards (c.transfer.shard side)).phase c.transfer.tx = .committed
  phase : ∀ s tx, (net.shards s).phase tx ≠ .idle →
    ∃ (j : ℕ) (c : Call n) (side : Side), net.calls[j]? = some c ∧ c.transfer.tx = tx ∧
      c.transfer.shard side = s ∧ c.allows side ((net.shards s).phase tx)

/-! ## Calls that go on -/

namespace Call

variable {c c' : Call n} {side : Side} {err : Option String}

theorem not_voted_of_aborts (h : c.stage.aborts = true) : c.voted side = false := by
  unfold voted
  cases hstage : c.stage with
  | prepare | commit => simp [hstage, Stage.aborts] at h
  | abort => rfl
  | returned ending => cases ending <;> simp_all [Stage.aborts, Stage.commits]

theorem voted_of_commits (h : c.stage.commits = true) : c.voted side = true := by
  unfold voted
  cases hstage : c.stage with
  | prepare | abort => simp [hstage, Stage.commits] at h
  | commit => rfl
  | returned ending =>
    rw [hstage] at h
    exact h

/-- A vote that a call knows in its next stage it has known before. -/
theorem voted_of_next (herr : err = none → c.answer = some none)
    (h : Call.voted { c with
      stage := c.stage.next c.transfer err, turn := c.turn + 1, answer := none } side = true) :
    c.voted side = true := by
  cases hstage : c.stage with
  | prepare asked =>
    cases err with
    | some err =>
      have haborts : (c.stage.next c.transfer (some err)).aborts = true := by
        cases asked <;> simp [hstage, Stage.next, Stage.aborts]
      rw [not_voted_of_aborts haborts] at h
      cases h
    | none =>
      cases asked <;> cases side <;>
        simp_all [voted, Stage.next, Stage.commits]
  | abort =>
    have haborts : c.stage.aborts = true := by rw [hstage]; rfl
    rw [not_voted_of_aborts (Stage.aborts_next _ haborts err)] at h
    cases h
  | commit => exact voted_of_commits (by rw [hstage]; rfl)
  | returned ending =>
    rw [hstage] at h
    simpa only [voted, hstage, Stage.next] using h

theorem voted_of_receive {turn : ℕ} (h : (Network.receive turn err c).voted side = true) :
    c.voted side = true ∨ err = none ∧ c.turn = turn ∧ c.stage = .prepare side := by
  unfold Network.receive at h
  split_ifs at h with hturn
  · cases hstage : c.stage with
    | prepare asked => cases asked <;> cases side <;> simp_all [voted]
    | abort | commit | returned =>
      left
      simpa only [voted, hstage] using h
  · exact .inl h

theorem Advances.allows (h : c.Advances c') {p : Phase} (ha : c.allows side p) :
    c'.allows side p := by
  cases p with
  | idle => trivial
  | prepared p => exact ha.trans (by rw [h.transfer])
  | committed => exact h.commits ha
  | aborted => exact h.aborts ha

theorem Advances.sends (h : c.Advances c') {op : Op} (hs : c.sends op) : c'.sends op := by
  cases op with
  | prepare => trivial
  | commit => exact h.commits hs
  | abort => exact h.aborts hs
  | put | get | transfer | other => exact hs.elim

end Call

theorem Flight.Legit.mono {calls calls' : List (Call n)} {f : Flight n} (h : f.Legit calls)
    (hadv : ∀ (j : ℕ) (c : Call n), calls[j]? = some c →
      ∃ c', calls'[j]? = some c' ∧ c.Advances c') : f.Legit calls' := by
  unfold Flight.Legit at h ⊢
  cases hcall : f.call with
  | none =>
    rw [hcall] at h
    exact h
  | some j =>
    rw [hcall] at h
    obtain ⟨c, op, side, hc, hshard, hcommand, hsends, hreply⟩ := h
    obtain ⟨c', hc', hcc'⟩ := hadv j c hc
    refine ⟨c', op, side, hc', hcc'.transfer ▸ hshard, hcc'.transfer ▸ hcommand, hcc'.sends hsends,
      fun turn hturn => ?_⟩
    obtain ⟨hle, hreq⟩ := hreply turn hturn
    have hle' := hcc'.turn
    refine ⟨hle.trans hle', fun heq => ?_⟩
    rw [hcc'.stage (by omega)]
    exact hreq (by omega)

namespace Sound

open Network

variable {shardFor : String → Fin n} {net net' : Network n} {a : Action}

theorem init (maxKeys : ℕ) (balances : Fin n → Finmap fun _ : String => BitVec 64) :
    Sound (Network.init maxKeys balances) where
  exclusive s tx h := by simp [Network.init, Machine.new] at h
  apart j j' t t' side side' h := by simp [Network.init, Network.transfers] at h
  flight f h := by cases h
  retry r h := by cases h
  vote j c side h := by simp [Network.init] at h
  phase s tx h := by simp [Network.init, Machine.new, Machine.phase] at h

/-- Only requests and retries change. -/
theorem of_calls (h : Sound net) (hshards : net'.shards = net.shards)
    (hcalls : net'.calls = net.calls)
    (hflight : ∀ f ∈ net'.flights, f ∈ net.flights ∨ f.Legit net.calls)
    (hretry : ∀ r ∈ net'.retries, ∃ r' ∈ net.retries, r'.call = r.call) : Sound net' where
  exclusive := hshards ▸ h.exclusive
  apart := by
    rw [transfers, hcalls]
    exact h.apart
  flight f hf := by
    rw [hcalls]
    exact (hflight f hf).elim (h.flight f) id
  retry r hr := by
    obtain ⟨r', hr', hcall⟩ := hretry r hr
    rw [hcalls, ← hcall]
    exact h.retry r' hr'
  vote := by
    rw [hcalls, hshards]
    exact h.vote
  phase := by
    rw [hcalls, hshards]
    exact h.phase

/-- An action that executes nothing: no vote is new, and every new request is one of its call. -/
theorem of_shards (h : Sound net) (ho : Outcome shardFor net a net')
    (hshards : net'.shards = net.shards) (hapart : Apart net'.transfers)
    (hvoted : ∀ (j : ℕ) (c' : Call n) (side : Side), net'.calls[j]? = some c' →
      c'.voted side = true → ∃ c, net.calls[j]? = some c ∧ c.voted side = true)
    (hflight : ∀ f ∈ net'.flights, f ∈ net.flights ∨ f.Legit net'.calls)
    (hretry : ∀ r ∈ net'.retries, (∃ r' ∈ net.retries, r'.call = r.call) ∨
      ∃ c, net'.calls[r.call]? = some c ∧ c.stage.commits = true) : Sound net' where
  exclusive := hshards ▸ h.exclusive
  apart := hapart
  flight f hf := (hflight f hf).elim (fun hf => (h.flight f hf).mono fun _ _ => ho.advances) id
  retry r hr := by
    rcases hretry r hr with ⟨r', hr', hcall⟩ | hr
    · obtain ⟨c, hc, hcommits⟩ := h.retry r' hr'
      obtain ⟨c', hc', hadv⟩ := ho.advances hc
      exact ⟨c', hcall ▸ hc', hadv.commits hcommits⟩
    · exact hr
  vote j c' side hc' hv := by
    obtain ⟨c, hc, hv⟩ := hvoted j c' side hc' hv
    obtain ⟨c'', hc'', hadv⟩ := ho.advances hc
    obtain rfl := Option.some.inj (hc'.symm.trans hc'')
    rw [hshards, hadv.transfer]
    exact h.vote j c side hc hv
  phase s tx hphase := by
    rw [hshards] at hphase ⊢
    obtain ⟨j, c, side, hc, rfl, hs, hallows⟩ := h.phase s tx hphase
    obtain ⟨c', hc', hadv⟩ := ho.advances hc
    exact ⟨j, c', side, hc', by rw [hadv.transfer], by rw [hadv.transfer, hs], hadv.allows hallows⟩

theorem phase_execute_of_ne {f : Flight n} {s : Fin n} {tx : String}
    (h : s = f.shard → f.command.op.ofTx = true → f.command.tx ≠ tx) :
    ((net.execute f).shards s).phase tx = (net.shards s).phase tx := by
  by_cases hs : s = f.shard
  · subst hs
    simp only [Network.execute, Function.update_self]
    exact ((net.shards f.shard).effect f.command).phase_of_ne (h rfl)
  · simp only [Network.execute, Function.update_of_ne hs]

/-- The phase of a transaction at the shard that has executed one of its commands. -/
theorem phase_execute {f : Flight n} {c : Call n} {op : Op} {side : Side}
    (hex : (net.shards f.shard).Exclusive) (hcommand : f.command = c.transfer.command op side)
    (hsends : c.sends op) (phase phase' : Phase)
    (hphase : (net.shards f.shard).phase c.transfer.tx = phase)
    (hphase' : ((net.execute f).shards f.shard).phase c.transfer.tx = phase') :
    phase' = phase ∨ phase = .idle ∧ phase' = .prepared (c.transfer.command .prepare side) ∨
      (∃ p, phase = .prepared p) ∧ phase' = .committed ∧ c.stage.commits = true ∨
      phase' = .aborted ∧ c.stage.aborts = true := by
  have heff := (net.shards f.shard).effect f.command
  simp only [Network.execute, Function.update_self] at hphase'
  have htx : f.command.tx = c.transfer.tx := by simp [hcommand]
  rw [← htx] at hphase hphase'
  cases op with
  | put | get | transfer | other => exact hsends.elim
  | prepare =>
    rcases (heff.phase_prepare hex (by simp [hcommand])).1 with heq | ⟨hidle, hprep⟩
    · exact .inl (hphase'.symm.trans (heq.trans hphase))
    · exact .inr (.inl ⟨hphase.symm.trans hidle, hphase'.symm.trans (hcommand ▸ hprep)⟩)
  | commit =>
    rcases heff.phase_commit hex (by simp [hcommand]) with heq | ⟨p, hp, hcommitted, -⟩
    · rw [heq] at hphase'
      exact .inl (hphase'.symm.trans hphase)
    · exact .inr (.inr (.inl ⟨⟨p, hphase.symm.trans hp⟩, hphase'.symm.trans hcommitted, hsends⟩))
  | abort =>
    rcases heff.phase_abort (by simp [hcommand]) with heq | haborted
    · exact .inl (hphase'.symm.trans (heq.trans hphase))
    · exact .inr (.inr (.inr ⟨hphase'.symm.trans haborted, hsends⟩))

/-- A request that touches the transaction of a call at one of its shards is sent for that call. -/
theorem call_of_hit (h : Sound net) {f : Flight n} (hf : f.Legit net.calls) {j : ℕ} {c : Call n}
    {side : Side} (hc : net.calls[j]? = some c) (hshard : c.transfer.shard side = f.shard)
    (hop : f.command.op.ofTx = true) (htx : f.command.tx = c.transfer.tx) :
    ∃ op, f.call = some j ∧ f.command = c.transfer.command op side ∧ c.sends op := by
  unfold Flight.Legit at hf
  cases hcall : f.call with
  | none =>
    simp only [hcall] at hf
    rw [hf] at hop
    cases hop
  | some j' =>
    simp only [hcall] at hf
    obtain ⟨c', op, side', hc', hshard', hcommand, hsends, -⟩ := hf
    have htx' : c.transfer.tx = c'.transfer.tx := by
      rw [← htx, hcommand, Transfer.command_tx]
    obtain ⟨rfl, rfl⟩ := h.apart j j' _ _ side side' (transfers_getElem? hc)
      (transfers_getElem? hc') htx' (hshard.trans hshard')
    obtain rfl := Option.some.inj (hc.symm.trans hc')
    exact ⟨op, rfl, hcommand, hsends⟩

/-- An answer without an error to the request of the stage is a vote that the shard keeps. -/
theorem voted_now (h : Sound net) {f : Flight n} (hf : f.Legit net.calls) {j turn : ℕ} {c : Call n}
    {side : Side} (hc : net.calls[j]? = some c) (hcall : f.call = some j)
    (hreply : f.reply = .call turn) (hturn : c.turn = turn) (hstage : c.stage = .prepare side)
    (herr : ((net.shards f.shard).applyLocked f.command).2.err = none) :
    ((net.execute f).shards (c.transfer.shard side)).phase c.transfer.tx =
      .prepared (c.transfer.command .prepare side) := by
  unfold Flight.Legit at hf
  simp only [hcall] at hf
  obtain ⟨c', op, side', hc', hshard, hcommand, -, hreq⟩ := hf
  obtain rfl := Option.some.inj (hc.symm.trans hc')
  have hrequest := (hreq turn hreply).2 hturn.symm
  rw [hstage] at hrequest
  obtain ⟨rfl, rfl⟩ := Prod.mk.inj (Option.some.inj hrequest)
  rw [← hshard, Network.execute]
  simp only [Function.update_self]
  have heff := (net.shards f.shard).effect f.command
  have hprepared := (heff.phase_prepare (h.exclusive _) (by simp [hcommand])).2
    (Result.err_eq_none_iff.mp herr)
  rw [hcommand, Transfer.command_tx] at hprepared
  rw [hcommand, hprepared]

/-- A call that has changed in an execution has got the answer. -/
theorem call_of_execute {f : Flight n} {j : ℕ} {c' : Call n}
    (hc' : (net.execute f).calls[j]? = some c') :
    ∃ c, net.calls[j]? = some c ∧ c.Advances c' ∧
      ∀ side, c'.voted side = true → c.voted side = true ∨
        ∃ turn, f.call = some j ∧ f.reply = .call turn ∧ c.turn = turn ∧ c.stage = .prepare side ∧
          ((net.shards f.shard).applyLocked f.command).2.err = none := by
  rcases getElem?_execute net f j with heq | ⟨turn, hcall, hreply, heq⟩
  · exact ⟨c', heq.symm.trans hc', .refl c', fun _ => .inl⟩
  · obtain ⟨c, hc, rfl⟩ := Option.map_eq_some_iff.mp (heq.symm.trans hc')
    refine ⟨c, hc, .receive c _ _, fun side hv => ?_⟩
    rcases Call.voted_of_receive hv with hv | ⟨herr, hturn, hstage⟩
    · exact .inl hv
    · exact .inr ⟨turn, hcall, hreply, hturn, hstage, herr⟩

theorem vote_execute (h : Sound net) {f : Flight n} (hf : f.Legit net.calls) {j : ℕ} {c' : Call n}
    {side : Side} (hc' : (net.execute f).calls[j]? = some c') (hv : c'.voted side = true) :
    ((net.execute f).shards (c'.transfer.shard side)).phase c'.transfer.tx =
        .prepared (c'.transfer.command .prepare side) ∨
      ((net.execute f).shards (c'.transfer.shard side)).phase c'.transfer.tx = .committed := by
  obtain ⟨c, hc, hadv, hvoted⟩ := call_of_execute hc'
  rw [hadv.transfer]
  rcases hvoted side hv with hv | ⟨turn, hcall, hreply, hturn, hstage, herr⟩
  · have hvote := h.vote j c side hc hv
    by_cases hhit : c.transfer.shard side = f.shard ∧ f.command.op.ofTx = true ∧
        f.command.tx = c.transfer.tx
    · obtain ⟨hshard, hop, htx⟩ := hhit
      obtain ⟨op, -, hcommand, hsends⟩ := h.call_of_hit hf hc hshard hop htx
      rw [hshard] at hvote ⊢
      rcases phase_execute (h.exclusive _) hcommand hsends _ _ rfl rfl with
        heq | ⟨hidle, -⟩ | ⟨-, hcommitted, -⟩ | ⟨-, haborts⟩
      · rw [heq]
        exact hvote
      · rcases hvote with hvote | hvote <;> exact absurd (hidle.symm.trans hvote) nofun
      · exact .inr hcommitted
      · rw [Call.not_voted_of_aborts haborts] at hv
        cases hv
    · rw [phase_execute_of_ne fun hs hop htx => hhit ⟨hs, hop, htx⟩]
      exact hvote
  · exact .inl (h.voted_now hf hc hcall hreply hturn hstage herr)

theorem phase_of_execute (h : Sound net) {f : Flight n} (hf : f.Legit net.calls) {s : Fin n}
    {tx : String}
    (hphase : ((net.execute f).shards s).phase tx ≠ .idle) :
    ∃ (j : ℕ) (c : Call n) (side : Side), (net.execute f).calls[j]? = some c ∧
      c.transfer.tx = tx ∧ c.transfer.shard side = s ∧
      c.allows side (((net.execute f).shards s).phase tx) := by
  have hkeep : ((net.execute f).shards s).phase tx = (net.shards s).phase tx →
      ∃ (j : ℕ) (c : Call n) (side : Side), (net.execute f).calls[j]? = some c ∧
        c.transfer.tx = tx ∧ c.transfer.shard side = s ∧
        c.allows side (((net.execute f).shards s).phase tx) := by
    intro heq
    rw [heq] at hphase ⊢
    obtain ⟨j, c, side, hc, htx, hs, hallows⟩ := h.phase s tx hphase
    obtain ⟨c', hc', hadv⟩ := advances_execute net f hc
    exact ⟨j, c', side, hc', hadv.transfer ▸ htx, hadv.transfer ▸ hs, hadv.allows hallows⟩
  by_cases hhit : s = f.shard ∧ f.command.op.ofTx = true ∧ f.command.tx = tx
  · obtain ⟨rfl, hop, rfl⟩ := hhit
    unfold Flight.Legit at hf
    cases hcall : f.call with
    | none =>
      simp only [hcall] at hf
      rw [hf] at hop
      cases hop
    | some j =>
      simp only [hcall] at hf
      obtain ⟨c, op, side, hc, hshard, hcommand, hsends, -⟩ := hf
      obtain ⟨c', hc', hadv⟩ := advances_execute net f hc
      have htx : f.command.tx = c.transfer.tx := by rw [hcommand, Transfer.command_tx]
      have hnew : c.allows side (((net.execute f).shards f.shard).phase f.command.tx) →
          ∃ (j : ℕ) (c : Call n) (side : Side), (net.execute f).calls[j]? = some c ∧
            c.transfer.tx = f.command.tx ∧ c.transfer.shard side = f.shard ∧
            c.allows side (((net.execute f).shards f.shard).phase f.command.tx) := fun hallows =>
        ⟨j, c', side, hc', by rw [hadv.transfer, htx], by rw [hadv.transfer, hshard],
          hadv.allows hallows⟩
      rcases phase_execute (h.exclusive _) hcommand hsends _ _ rfl rfl with
        heq | ⟨-, heq⟩ | ⟨-, heq, hcommits⟩ | ⟨heq, haborts⟩
      · exact hkeep (htx ▸ heq)
      · exact hnew (by rw [htx, heq]; rfl)
      · exact hnew (by rw [htx, heq]; exact hcommits)
      · exact hnew (by rw [htx, heq]; exact haborts)
  · exact hkeep (phase_execute_of_ne fun hs hop htx => hhit ⟨hs, hop, htx⟩)

/-- **A shard executes a request.** -/
theorem execute (h : Sound net) {f : Flight n} (hf : f.Legit net.calls) :
    Sound (net.execute f) := by
  refine ⟨fun s => ?_, ?_, fun f' hf' => (h.flight f' hf').mono fun _ _ => advances_execute net f,
    fun r hr => ?_, fun j c' side hc' hv => h.vote_execute hf hc' hv,
    fun s tx => h.phase_of_execute hf⟩
  · by_cases hs : s = f.shard
    · subst hs
      simp only [Network.execute, Function.update_self]
      exact ((net.shards f.shard).effect f.command).exclusive (h.exclusive _)
    · simp only [Network.execute, Function.update_of_ne hs]
      exact h.exclusive s
  · rw [transfers_execute]
    exact h.apart
  · obtain ⟨r', hr', hcall⟩ := retry_of_execute hr
    obtain ⟨c, hc, hcommits⟩ := h.retry r' hr'
    obtain ⟨c', hc', hadv⟩ := advances_execute net f hc
    exact ⟨c', hcall ▸ hc', hadv.commits hcommits⟩

/-- The request of the stage of a call is one of the call. -/
theorem legit_requestOf {calls : List (Call n)} {j : ℕ} {c : Call n} {f : Flight n}
    (hc : calls[j]? = some c) (hf : requestOf j c = some f) : f.Legit calls := by
  obtain ⟨⟨op, side⟩, hreq, rfl⟩ := Option.map_eq_some_iff.mp hf
  refine ⟨c, op, side, hc, rfl, rfl, ?_, fun turn hturn => ?_⟩
  · rcases Stage.commits_or_aborts_of_request hreq with ⟨rfl, -⟩ | ⟨rfl, h⟩ | ⟨rfl, h⟩
    · trivial
    · exact h
    · exact h
  · obtain rfl := Reply.call.inj hturn
    exact ⟨le_rfl, fun _ => hreq⟩

/-- A call goes on. -/
theorem enter (h : Sound net) {j : ℕ} {c : Call n} {err : Option String}
    (hc : net.calls[j]? = some c) (herr : err = none → c.answer = some none)
    (ho : Outcome shardFor net a (net.enter j c (c.stage.next c.transfer err))) :
    Sound (net.enter j c (c.stage.next c.transfer err)) := by
  have hself := (getElem?_enter hc (c.stage.next c.transfer err) j).trans (if_pos rfl)
  refine h.of_shards ho rfl ((transfers_enter hc _).symm ▸ h.apart) (fun i c' side hc' hv => ?_)
    (fun f hf => ?_) fun r hr => ?_
  · rw [getElem?_enter hc] at hc'
    split_ifs at hc' with hi
    · obtain rfl := Option.some.inj hc'
      exact ⟨c, hi ▸ hc, Call.voted_of_next herr hv⟩
    · exact ⟨c', hc', hv⟩
  · rcases List.mem_append.mp hf with hf | hf
    · exact .inl hf
    · exact .inr (legit_requestOf hself (Option.mem_toList.mp hf))
  · rcases List.mem_append.mp hr with hr | hr
    · exact .inl ⟨r, hr, rfl⟩
    · split_ifs at hr
      · cases hr
      · obtain ⟨side, hside, rfl⟩ := List.mem_map.mp hr
        exact .inr ⟨_, hself, Stage.commits_of_undelivered hside⟩

/-- A call begins, under a name that no transfer on its shards has had. -/
theorem begin (h : Sound net) {t : Transfer n} (hne : t.source ≠ t.target)
    (hfree : ∀ t' ∈ net.transfers, t'.tx = t.tx → ∀ side side', t'.shard side ≠ t.shard side')
    (ho : Outcome shardFor net a (net.begin t)) : Sound (net.begin t) := by
  have hself := (getElem?_begin net t _).trans (if_pos rfl)
  refine h.of_shards ho rfl ((transfers_begin net t).symm ▸ h.apart.concat hne hfree)
    (fun j c' side hc' hv => ?_) (fun f hf => ?_) fun r hr => .inl ⟨r, hr, rfl⟩
  · rw [getElem?_begin] at hc'
    split_ifs at hc' with hj
    · obtain rfl := Option.some.inj hc'
      cases side <;> simp [Call.voted] at hv
    · exact ⟨c', hc', hv⟩
  · rcases List.mem_append.mp hf with hf | hf
    · exact .inl hf
    · exact .inr (legit_requestOf hself (Option.mem_toList.mp hf))

end Sound

/-- The next transaction has a name that no earlier transfer on its shards has had. -/
def Network.nameFree (shardFor : String → Fin n) (net : Network n) : Network.Action → Bool
  | .transfer fromKey toKey _ =>
    shardFor fromKey = shardFor toKey ||
      net.transfers.all fun t => t.tx ≠ net.nextTx ||
        (t.source ∉ [shardFor fromKey, shardFor toKey] &&
          t.target ∉ [shardFor fromKey, shardFor toKey])
  | _ => true

theorem Network.ne_of_nameFree {shardFor : String → Fin n} {net : Network n}
    {fromKey toKey : String} {amount : BitVec 64} (hne : shardFor fromKey ≠ shardFor toKey)
    (hok : net.nameFree shardFor (.transfer fromKey toKey amount) = true) {t : Transfer n}
    (ht : t ∈ net.transfers) (htx : t.tx = net.nextTx) (side : Side) :
    t.shard side ≠ shardFor fromKey ∧ t.shard side ≠ shardFor toKey := by
  have hfree := List.all_eq_true.mp (((Bool.or_eq_true _ _).mp hok).resolve_left (by simp [hne]))
    t ht
  simp only [Bool.or_eq_true, decide_eq_true_eq, Bool.and_eq_true, List.mem_cons, not_or,
    List.not_mem_nil, not_false_eq_true, and_true] at hfree
  obtain ⟨hsource, htarget⟩ := hfree.resolve_left fun hname => hname htx
  cases side with
  | source => exact hsource
  | target => exact htarget

namespace Sound

open Network

variable {shardFor : String → Fin n} {net net' : Network n} {a : Action}

theorem dropFlight (h : Sound net) (i : ℕ) : Sound (net.dropFlight i) :=
  h.of_calls rfl rfl (fun _ hf => .inl (List.mem_of_mem_eraseIdx hf)) fun r hr => ⟨r, hr, rfl⟩

/-- **Every action keeps shards and calls in step**, when names are not used again. -/
theorem step (h : Sound net) (hok : net.nameFree shardFor a = true)
    (hs : net.step shardFor a = some net') : Sound net' := by
  have ho := Outcome.of_step hs
  cases Outcome.of_step hs with
  | client f hcall hop =>
    refine h.of_calls rfl rfl (fun f' hf' => ?_) fun r hr => ⟨r, hr, rfl⟩
    rcases List.mem_append.mp hf' with hf' | hf'
    · exact .inl hf'
    · obtain rfl := List.mem_singleton.mp hf'
      exact .inr (by simpa only [Flight.Legit, hcall] using hop)
  | begin hne =>
    refine h.begin hne (fun t ht htx side side' => ?_) ho
    obtain ⟨hsource, htarget⟩ := ne_of_nameFree hne hok ht htx side
    cases side' with
    | source => exact hsource
    | target => exact htarget
  | @execute i f hf =>
    exact (h.dropFlight i).execute (h.flight f (List.mem_of_getElem? hf))
  | lose => exact h.dropFlight _
  | enter c err hc hreq herr => exact h.enter hc herr ho
  | tick r c hr hc =>
    refine h.of_calls rfl rfl (fun f' hf' => ?_) fun r' hr' => retry_of_setRetry hr' hr rfl
    rcases List.mem_append.mp hf' with hf' | hf'
    · exact .inl hf'
    · obtain rfl := List.mem_singleton.mp hf'
      obtain ⟨c', hc', hcommits⟩ := h.retry r (List.mem_of_getElem? hr)
      obtain rfl := Option.some.inj (hc.symm.trans hc')
      exact .inr ⟨c, .commit, r.side, hc, rfl, rfl, hcommits, nofun⟩
  | retry r stage hr =>
    exact h.of_calls rfl rfl (fun f' hf' => .inl hf') fun r' hr' => retry_of_setRetry hr' hr rfl
  | close | restart =>
    exact h.of_calls rfl rfl (fun f' hf' => .inl hf') fun r hr => ⟨r, hr, rfl⟩

end Sound

end PaxosPayments.ControlPlane
