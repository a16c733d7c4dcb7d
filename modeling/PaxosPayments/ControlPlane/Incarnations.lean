import PaxosPayments.ControlPlane.OneCoordinator

/-!
# Coordinators one after the other

The shards outlive the gateway, and every coordinator counts its transactions from one. Where a name
does come again only at other shards, a decision stands over any number of restarts, and whatever
happens to a transaction at its shards is the work of its own call (`decision_kept`).

The second coordinator of a cluster uses the names of the first. When the first one has stopped
between the two commits of a transfer, the next transfer of the same name takes back the half that
is not yet committed (`commit_taken_back`).
-/

namespace PaxosPayments.ControlPlane

variable {n : ℕ}

open Network

/-- What happens to a transaction at a shard was sent by a call that has the transaction there. -/
structure Traced (net : Network n) : Prop where
  sound : Sound net
  sent : ∀ e ∈ net.history, e.command.op.ofTx = true → ∃ (j : ℕ) (c : Call n) (side : Side),
    e.call = some j ∧ net.calls[j]? = some c ∧ c.transfer.tx = e.command.tx ∧
      c.transfer.shard side = e.shard

namespace Traced

variable {shardFor : String → Fin n} {net net' : Network n} {a : Action}

theorem init (maxKeys : ℕ) (balances : Fin n → Finmap fun _ : String => BitVec 64) :
    Traced (Network.init maxKeys balances) :=
  ⟨.init maxKeys balances, fun _ he => by cases he⟩

theorem step (h : Traced net) (hok : net.nameFree shardFor a = true)
    (hs : net.step shardFor a = some net') : Traced net' := by
  have ho := Outcome.of_step hs
  refine ⟨h.sound.step hok hs, fun e he hop => ?_⟩
  have hkeep : (∃ (j : ℕ) (c : Call n) (side : Side), e.call = some j ∧ net.calls[j]? = some c ∧
      c.transfer.tx = e.command.tx ∧ c.transfer.shard side = e.shard) →
      ∃ (j : ℕ) (c : Call n) (side : Side), e.call = some j ∧ net'.calls[j]? = some c ∧
        c.transfer.tx = e.command.tx ∧ c.transfer.shard side = e.shard := by
    rintro ⟨j, c, side, hcall, hc, htx, hshard⟩
    obtain ⟨c', hc', hadv⟩ := ho.advances hc
    exact ⟨j, c', side, hcall, hc', by rw [hadv.transfer, htx], by rw [hadv.transfer, hshard]⟩
  refine hkeep ?_
  rcases ho.shards with ⟨-, hhistory⟩ | ⟨i, f, hf, rfl⟩
  · exact h.sent e (hhistory ▸ he) hop
  · rcases List.mem_cons.mp he with rfl | he
    · have hlegit := h.sound.flight f (List.mem_of_getElem? hf)
      unfold Flight.Legit at hlegit
      cases hcall : f.call with
      | none =>
        simp only [hcall] at hlegit
        rw [hlegit] at hop
        cases hop
      | some j =>
        simp only [hcall] at hlegit
        obtain ⟨c, op, side, hc, hshard, hcommand, -, -⟩ := hlegit
        exact ⟨j, c, side, rfl, hc, by rw [hcommand, Transfer.command_tx], hshard.symm⟩
    · exact h.sent e he hop

/-- A transaction is touched at its shards for its own call only. -/
theorem call_eq (h : Traced net) {j : ℕ} {c : Call n} {side : Side} {e : Event n}
    (hc : net.calls[j]? = some c) (he : e ∈ net.history) (hop : e.command.op.ofTx = true)
    (htx : e.command.tx = c.transfer.tx) (hshard : e.shard = c.transfer.shard side) :
    e.call = some j := by
  obtain ⟨j', c', side', hcall, hc', htx', hshard'⟩ := h.sent e he hop
  obtain ⟨rfl, -⟩ := h.sound.apart j' j _ _ side' side (transfers_getElem? hc')
    (transfers_getElem? hc) (htx'.trans htx) (hshard'.trans hshard)
  exact hcall

/-- A committed decision is aborted nowhere. -/
theorem not_aborted (h : Traced net) {j : ℕ} {c : Call n} (hc : net.calls[j]? = some c)
    (hcommits : c.stage.commits = true) (side : Side) :
    (net.shards (c.transfer.shard side)).decided.lookup c.transfer.tx ≠ some .abort := by
  intro habort
  have haborted := Machine.phase_of_abort habort
  rcases h.sound.vote j c side hc (Call.voted_of_commits hcommits) with hphase | hphase <;>
    exact absurd (haborted.symm.trans hphase) nofun

/-- A free name is unknown to the shards of the transfer that gets it. -/
theorem idle_of_nameFree (h : Traced net) {fromKey toKey : String} {amount : BitVec 64}
    (hne : shardFor fromKey ≠ shardFor toKey)
    (hok : net.nameFree shardFor (.transfer fromKey toKey amount) = true) {s : Fin n}
    (hs : s = shardFor fromKey ∨ s = shardFor toKey) :
    (net.shards s).prepared.lookup net.nextTx = none ∧
      (net.shards s).decided.lookup net.nextTx = none := by
  refine Machine.lookup_of_phase_idle ?_
  by_contra hphase
  obtain ⟨j, c, side, hc, htx, hshard, -⟩ := h.sound.phase s net.nextTx hphase
  obtain ⟨hsource, htarget⟩ := ne_of_nameFree hne hok
    (List.mem_of_getElem? (transfers_getElem? hc)) htx side
  rcases hs with hs | hs
  · exact hsource (hshard.trans hs)
  · exact htarget (hshard.trans hs)

end Traced

namespace Network

variable {shardFor : String → Fin n}

/-- **A decision stands over restarts**, in every run of coordinators one after the other in which
no transfer gets a name that an earlier one on its shards has had: a transaction whose decision is
COMMIT is aborted at none of its shards, everything that has happened to a transaction at a shard
was sent for its own call, and a transfer begins under a name that its shards do not know. -/
theorem decision_kept {maxKeys : ℕ} {balances : Fin n → Finmap fun _ : String => BitVec 64}
    {acts : List Action} {net : Network n}
    (h : Run (step shardFor) (nameFree shardFor) (init maxKeys balances) acts net) :
    (∀ (j : ℕ) (c : Call n), net.calls[j]? = some c → c.stage.commits = true → ∀ side,
      (net.shards (c.transfer.shard side)).decided.lookup c.transfer.tx ≠ some .abort) ∧
    (∀ (j : ℕ) (c : Call n) (side : Side), net.calls[j]? = some c → ∀ e ∈ net.history,
      e.command.op.ofTx = true → e.command.tx = c.transfer.tx → e.shard = c.transfer.shard side →
      e.call = some j) ∧
    ∀ fromKey toKey amount, shardFor fromKey ≠ shardFor toKey →
      net.nameFree shardFor (.transfer fromKey toKey amount) = true →
      ∀ s, s = shardFor fromKey ∨ s = shardFor toKey →
        (net.shards s).prepared.lookup net.nextTx = none ∧
          (net.shards s).decided.lookup net.nextTx = none := by
  have hI : Traced net :=
    h.invariant (I := Traced) (fun _ _ _ hI hok hs => hI.step hok hs) (.init maxKeys balances)
  exact ⟨fun j c hc hcommits side => hI.not_aborted hc hcommits side,
    fun j c side hc e he hop htx hshard => hI.call_eq hc he hop htx hshard,
    fun fromKey toKey amount hne hok s hs => hI.idle_of_nameFree hne hok hs⟩

/-- The first coordinator stops between the commits of a transfer from `A` to `B`. -/
def stoppedBetween : List Action := halfCommitted ++ [.restart]

/-- The first transfer of the next coordinator, with every request executed. -/
def nextTransfer (fromKey toKey : String) : List Action :=
  [.transfer fromKey toKey 30, .execute 0, .answer 1, .execute 0, .answer 1, .execute 0, .answer 1]

/-- The next coordinator has its `tx1` at `C` and `D`. -/
theorem decision_kept_elsewhere :
    ∃ (net : Network 4) (c : Call 4),
      Run (step fourShards) (nameFree fourShards) (init 0 hundreds)
        (stoppedBetween ++ nextTransfer "C" "D") net ∧
      net.calls[0]? = some c ∧ c.stage.commits = true ∧ c.transfer.tx = "tx1" ∧
      (net.shards c.transfer.target).decided.lookup c.transfer.tx ≠ some .abort := by
  obtain ⟨net, hrun, hend⟩ := Run.exists_of_exec_map (step fourShards) (nameFree fourShards)
    (init 0 hundreds) (stoppedBetween ++ nextTransfer "C" "D")
    (fun net => net.calls[0]?.map fun c => (c.stage.commits, c.transfer.tx)) (some (true, "tx1"))
    (by decide +kernel)
  obtain ⟨c, hc, hcall⟩ := Option.map_eq_some_iff.mp hend
  obtain ⟨hcommits, htx⟩ := Prod.mk.inj hcall
  exact ⟨net, c, hrun, hc, hcommits, htx, (decision_kept hrun).1 0 c hc hcommits .target⟩

/-- **A decision is taken back.** The first coordinator decides to commit `tx1`, and stops when `A`
has committed it and `B` has it prepared. The next coordinator calls its first transfer `tx1`, finds
the name settled at `A`, and aborts it at both shards: `B` lets the prepared half go, and `A` has
paid. -/
theorem commit_taken_back :
    (∃ net : Network 4, Run (step fourShards) always (init 0 hundreds) stoppedBetween net ∧
      (net.shards 0).decided.lookup net.nextTx = some .commit ∧
      (net.shards 1).prepared.lookup net.nextTx = some ⟨.prepare, "B", "", 30, "tx1"⟩) ∧
    ∃ (net : Network 4) (c : Call 4),
      Run (step fourShards) always (init 0 hundreds) (stoppedBetween ++ nextTransfer "A" "B") net ∧
      net.calls[0]? = some c ∧ c.stage.commits = true ∧
      (net.shards c.transfer.source).decided.lookup c.transfer.tx = some .commit ∧
      (net.shards c.transfer.target).decided.lookup c.transfer.tx = some .abort := by
  constructor
  · obtain ⟨net, hrun, hend⟩ := Run.exists_of_exec_map (step fourShards) always (init 0 hundreds)
      stoppedBetween (fun net => ((net.shards 0).decided.lookup net.nextTx,
        (net.shards 1).prepared.lookup net.nextTx))
      (some .commit, some ⟨.prepare, "B", "", 30, "tx1"⟩) (by decide +kernel)
    obtain ⟨hdecided, hprepared⟩ := Prod.mk.inj hend
    exact ⟨net, hrun, hdecided, hprepared⟩
  · obtain ⟨net, hrun, hend⟩ := Run.exists_of_exec_map (step fourShards) always (init 0 hundreds)
      (stoppedBetween ++ nextTransfer "A" "B")
      (fun net => net.calls[0]?.map fun c => (c.stage.commits,
        (net.shards c.transfer.source).decided.lookup c.transfer.tx,
        (net.shards c.transfer.target).decided.lookup c.transfer.tx))
      (some (true, some .commit, some .abort)) (by decide +kernel)
    obtain ⟨c, hc, hcall⟩ := Option.map_eq_some_iff.mp hend
    simp only [Prod.mk.injEq] at hcall
    exact ⟨net, c, hrun, hc, hcall⟩

end Network

end PaxosPayments.ControlPlane
