import PaxosPayments.ControlPlane.Atomicity

/-!
# One coordinator

The transfers of one coordinator, which numbers its transactions. While the 64-bit number has not
come round, every transfer has a name of its own, and the whole of two-phase commit holds
(`atomic`): no transaction is committed at one shard and aborted at another, what is aborted has
changed no balance, and the balances of all shards add up to what puts have made of them, except for
the transfers that are committed at one of their shards so far and still prepared at the other.

After `2 ^ 64` transfers the first name comes again, and the two transfers that have it may be
decided differently (`name_comes_round`).
-/

namespace PaxosPayments.ControlPlane

variable {n : ℕ}

def Side.other : Side → Side
  | source => target
  | target => source

namespace Network

/-- The sum of all balances on all shards, modulo `2 ^ 64`. -/
def sum (net : Network n) : BitVec 64 := ∑ s, (net.shards s).sum

/-- What puts have changed about the balances. -/
def putChanges (net : Network n) : BitVec 64 :=
  (net.history.map fun e => if e.command.op = .put then e.after.sum - e.before.sum else 0).sum

/-- The half is committed at its shard. -/
def committed (net : Network n) (t : Transfer n) (side : Side) : Bool :=
  (net.shards (t.shard side)).decided.lookup t.tx = some .commit

/-- The delta of a transfer that is committed at exactly one of its shards. -/
def outstanding (net : Network n) (t : Transfer n) : BitVec 64 :=
  match net.committed t .source, net.committed t .target with
  | true, false => t.delta .source
  | false, true => t.delta .target
  | true, true | false, false => 0

/-- There is only one coordinator, and it begins no more transfers than it has numbers. -/
def oneCoordinator (shardFor : String → Fin n) (net : Network n) : Action → Bool
  | .transfer fromKey toKey _ => shardFor fromKey = shardFor toKey || net.calls.length < 2 ^ 64
  | .restart => false
  | _ => true

theorem committed_iff {net : Network n} {t : Transfer n} {side : Side} :
    net.committed t side = true ↔ (net.shards (t.shard side)).phase t.tx = .committed := by
  rw [committed, decide_eq_true_eq, Machine.phase_eq_committed_iff]

end Network

namespace Sound

open Network

variable {net : Network n} {j : ℕ} {c : Call n} {side : Side}

/-- Only a call with the decision COMMIT is committed anywhere. -/
theorem commits_of_committed (h : Sound net) (hc : net.calls[j]? = some c)
    (hcommitted : net.committed c.transfer side = true) : c.stage.commits = true := by
  rw [committed_iff] at hcommitted
  obtain ⟨j', c', side', hc', htx, hshard, hallows⟩ := h.phase (c.transfer.shard side)
    c.transfer.tx (by simp [hcommitted])
  obtain ⟨rfl, rfl⟩ := h.apart j' j _ _ side' side (transfers_getElem? hc')
    (transfers_getElem? hc) htx hshard
  obtain rfl := Option.some.inj (hc'.symm.trans hc)
  rw [hcommitted] at hallows
  exact hallows

/-- A transfer that is committed at one shard is committed or prepared at the other. -/
theorem prepared_of_committed (h : Sound net) (hc : net.calls[j]? = some c)
    (hcommitted : net.committed c.transfer side = true) {side' : Side}
    (hopen : net.committed c.transfer side' = false) :
    (net.shards (c.transfer.shard side')).prepared.lookup c.transfer.tx =
      some (c.transfer.command .prepare side') := by
  have hvoted : c.voted side' = true := Call.voted_of_commits (h.commits_of_committed hc hcommitted)
  rcases h.vote j c side' hc hvoted with hprepared | hcommitted
  · exact Machine.lookup_of_phase_prepared hprepared
  · rw [← committed_iff, hopen] at hcommitted
    cases hcommitted

end Sound

/-! ## The sum of the balances -/

namespace Network

variable {shardFor : String → Fin n} {net net' : Network n} {a : Action} {f : Flight n}

/-- The sum of the balances in terms of what has happened since a state with the sum `start`. -/
def Balanced (start : BitVec 64) (net : Network n) : Prop :=
  net.sum = start + net.putChanges + (net.transfers.map net.outstanding).sum

theorem sum_execute (net : Network n) (f : Flight n) :
    (net.execute f).sum = net.sum +
      (((net.shards f.shard).applyLocked f.command).1.sum - (net.shards f.shard).sum) := by
  simp only [sum, execute]
  exact sum_update Machine.sum net.shards f.shard _

theorem putChanges_execute (net : Network n) (f : Flight n) :
    (net.execute f).putChanges =
      (if f.command.op = .put then
        ((net.shards f.shard).applyLocked f.command).1.sum - (net.shards f.shard).sum
      else 0) + net.putChanges := by
  simp [putChanges, execute]

theorem outstanding_congr {t : Transfer n}
    (h : ∀ side, net'.committed t side = net.committed t side) :
    net'.outstanding t = net.outstanding t := by
  rw [outstanding, outstanding, h, h]

/-- One more half of a transfer is committed. -/
theorem outstanding_commit {t : Transfer n} {side : Side} (hbefore : net.committed t side = false)
    (hafter : net'.committed t side = true)
    (hother : net'.committed t side.other = net.committed t side.other) :
    net'.outstanding t = net.outstanding t + t.delta side := by
  have hzero : t.delta .source + t.delta .target = 0 := neg_add_cancel t.amount
  have hzero' : t.delta .target + t.delta .source = 0 := add_neg_cancel t.amount
  cases side <;> unfold outstanding <;> simp only [Side.other] at hother <;>
    rw [hbefore, hafter, hother]
  · cases net.committed t .target <;> simp [hzero']
  · cases net.committed t .source <;> simp [hzero]

theorem committed_execute_of_ne {t : Transfer n} {side : Side}
    (h : t.shard side = f.shard → f.command.op.ofTx = true → f.command.tx ≠ t.tx) :
    (net.execute f).committed t side = net.committed t side := by
  rw [Bool.eq_iff_iff, committed_iff, committed_iff, Sound.phase_execute_of_ne h]

theorem committed_execute_of_op (h : Sound net) (hop : f.command.op ≠ .commit) (t : Transfer n)
    (side : Side) : (net.execute f).committed t side = net.committed t side := by
  rw [Bool.eq_iff_iff, committed_iff, committed_iff]
  by_cases hs : t.shard side = f.shard
  · rw [hs]
    simp only [execute, Function.update_self]
    exact ((net.shards f.shard).effect f.command).committed_iff (h.exclusive _) hop
  · simp only [execute, Function.update_of_ne hs]

/-- A commit moves the sum by the delta of a half that was prepared. -/
theorem Balanced.commit {start : BitVec 64} (hb : Balanced start net) (h : Sound net)
    (hop : f.command.op = .commit) {p : Command}
    (hprepared : (net.shards f.shard).phase f.command.tx = .prepared p)
    (hcommitted : ((net.execute f).shards f.shard).phase f.command.tx = .committed)
    (hsum : ((net.shards f.shard).applyLocked f.command).1.sum =
      (net.shards f.shard).sum + p.amount) : Balanced start (net.execute f) := by
  obtain ⟨j, c, side, hc, htx, hshard, hallows⟩ := h.phase f.shard f.command.tx
    (by simp [hprepared])
  rw [hprepared] at hallows
  have hother : ∀ (i : ℕ) (t : Transfer n) (side' : Side), net.transfers[i]? = some t →
      (i ≠ j ∨ side' ≠ side) → (net.execute f).committed t side' = net.committed t side' := by
    intro i t side' ht hne
    refine committed_execute_of_ne fun hs _ htx' => ?_
    obtain ⟨rfl, rfl⟩ := h.apart i j t _ side' side ht (transfers_getElem? hc)
      (htx'.symm.trans htx.symm) (hs.trans hshard.symm)
    exact hne.elim (· rfl) (· rfl)
  have hbefore : net.committed c.transfer side = false := by
    rw [Bool.eq_false_iff, ne_eq, committed_iff, hshard, htx, hprepared]
    nofun
  have hafter : (net.execute f).committed c.transfer side = true := by
    rw [committed_iff, hshard, htx, hcommitted]
  have hdelta : p.amount = c.transfer.delta side := by rw [hallows, Transfer.command_prepare_amount]
  have hmoved : (net.transfers.map (net.execute f).outstanding).sum =
      (net.transfers.map net.outstanding).sum + p.amount := by
    refine sum_map_changed (transfers_getElem? hc) ?_ fun i t ht hi =>
      outstanding_congr fun side' => hother i t side' ht (.inl hi)
    rw [hdelta]
    refine outstanding_commit hbefore hafter ?_
    exact hother j _ _ (transfers_getElem? hc) (.inr (by cases side <;> simp [Side.other]))
  unfold Balanced at hb ⊢
  rw [transfers_execute, hmoved, sum_execute, putChanges_execute, if_neg (by simp [hop]), hsum, hb]
  abel

theorem Balanced.execute {start : BitVec 64} (hb : Balanced start net) (h : Sound net) :
    Balanced start (net.execute f) := by
  have heff := (net.shards f.shard).effect f.command
  have hkeep : (∀ t side, (net.execute f).committed t side = net.committed t side) →
      (((net.shards f.shard).applyLocked f.command).1.sum - (net.shards f.shard).sum =
        if f.command.op = .put then
          ((net.shards f.shard).applyLocked f.command).1.sum - (net.shards f.shard).sum else 0) →
      Balanced start (net.execute f) := by
    intro hcommitted hsum
    have hmap : net.transfers.map (net.execute f).outstanding = net.transfers.map net.outstanding :=
      List.map_congr_left fun t _ => outstanding_congr (hcommitted t)
    unfold Balanced at hb ⊢
    rw [transfers_execute, hmap, sum_execute, putChanges_execute, ← hsum, hb]
    abel
  by_cases hop : f.command.op = .commit
  · rcases heff.phase_commit (h.exclusive _) hop with heq | ⟨p, hprepared, hcommitted, hsum⟩
    · refine hkeep (fun t side => ?_) (by simp [hop, heq])
      have hshards : (net.execute f).shards = net.shards := by
        simp only [Network.execute, heq, Function.update_eq_self]
      rw [committed, committed, hshards]
    · refine hb.commit h hop hprepared ?_ hsum
      simpa only [Network.execute, Function.update_self] using hcommitted
  · refine hkeep (committed_execute_of_op h hop) ?_
    split_ifs with hput
    · rfl
    · rw [heff.sum_eq hput hop, sub_self]

end Network

/-! ## Runs of one coordinator -/

open Network

/-- The state of a cluster whose balances added up to `start` and that has had one coordinator. -/
structure Atomic (start : BitVec 64) (net : Network n) : Prop where
  sound : Sound net
  balanced : Balanced start net
  /-- A command of two-phase commit that has changed a balance is committed. -/
  moved : ∀ e ∈ net.history, e.command.op.ofTx = true → e.after.balances ≠ e.before.balances →
    (net.shards e.shard).phase e.command.tx = .committed
  few : net.transfers.length ≤ 2 ^ 64
  seq : net.seq.toNat = net.transfers.length % 2 ^ 64
  name : ∀ (j : ℕ) (t : Transfer n), net.transfers[j]? = some t → t.tx = txName ((j + 1) % 2 ^ 64)

namespace Atomic

variable {shardFor : String → Fin n} {start : BitVec 64} {net net' : Network n} {a : Action}

theorem init (maxKeys : ℕ) (balances : Fin n → Finmap fun _ : String => BitVec 64) :
    Atomic (Network.init maxKeys balances).sum (Network.init maxKeys balances) where
  sound := .init maxKeys balances
  balanced := by simp [Network.Balanced, putChanges, transfers, Network.init]
  moved e he := by cases he
  few := by simp [transfers, Network.init]
  seq := rfl
  name j t ht := by simp [transfers, Network.init] at ht

theorem nextTx_eq (h : Atomic start net) :
    net.nextTx = txName ((net.transfers.length + 1) % 2 ^ 64) := by
  rw [nextTx, UInt64.toNat_add, h.seq]
  simp

/-- Transfers have different names. -/
theorem eq_of_tx (h : Atomic start net) {j j' : ℕ} {t t' : Transfer n}
    (ht : net.transfers[j]? = some t) (ht' : net.transfers[j']? = some t') (htx : t.tx = t'.tx) :
    j = j' := by
  rw [h.name j t ht, h.name j' t' ht'] at htx
  have hmod := txName_inj htx
  obtain ⟨hj, -⟩ := List.getElem?_eq_some_iff.mp ht
  obtain ⟨hj', -⟩ := List.getElem?_eq_some_iff.mp ht'
  have hfew := h.few
  omega

/-- The next name is a new one. -/
theorem nameFree (h : Atomic start net) (hok : net.oneCoordinator shardFor a = true) :
    net.nameFree shardFor a = true := by
  cases a with
  | transfer fromKey toKey amount =>
    refine (Bool.or_eq_true _ _).mpr (((Bool.or_eq_true _ _).mp hok).imp id fun hlen => ?_)
    have hlen : net.transfers.length < 2 ^ 64 := by simpa [transfers] using hlen
    refine List.all_eq_true.mpr fun t ht => ?_
    obtain ⟨j, hj⟩ := List.mem_iff_getElem?.mp ht
    obtain ⟨hlt, -⟩ := List.getElem?_eq_some_iff.mp hj
    have hne : t.tx ≠ net.nextTx := by
      rw [h.name j t hj, h.nextTx_eq]
      intro htx
      have hmod := txName_inj htx
      omega
    simp [hne]
  | _ => rfl

theorem moved_step (h : Atomic start net) (ho : Outcome shardFor net a net') :
    ∀ e ∈ net'.history, e.command.op.ofTx = true → e.after.balances ≠ e.before.balances →
      (net'.shards e.shard).phase e.command.tx = .committed := by
  rcases ho.shards with ⟨hshards, hhistory⟩ | ⟨i, f, hf, rfl⟩
  · rw [hshards, hhistory]
    exact h.moved
  · have heff := (net.shards f.shard).effect f.command
    intro e he hop hne
    rcases List.mem_cons.mp he with rfl | he
    · simp only [Network.execute, Function.update_self]
      exact (heff.balances_eq hop).resolve_left hne
    · have hold := h.moved e he hop hne
      by_cases hs : e.shard = f.shard
      · rw [hs] at hold ⊢
        simp only [Network.execute, Function.update_self]
        exact heff.phase_committed hold
      · simp only [Network.execute, Function.update_of_ne hs]
        exact hold

/-- A transfer that has just begun is committed nowhere. -/
theorem outstanding_begin (h' : Sound net') (ho : Outcome shardFor net a net') {t : Transfer n}
    (ht : net'.transfers = net.transfers ++ [t]) : net'.outstanding t = 0 := by
  have hlast : net'.transfers[net.transfers.length]? = some t := by
    rw [ht, List.getElem?_concat_length]
  obtain ⟨c, hc, rfl⟩ := Option.map_eq_some_iff.mp
    ((List.getElem?_map (f := (·.transfer)) (l := net'.calls) ..).symm.trans hlast)
  have hlen : net.transfers.length = net.calls.length := by simp [Network.transfers]
  have hcommits : c.stage.commits = false := by
    rcases ho.origin hc with ⟨d, hd, -⟩ | ⟨fromKey, toKey, amount, -, -, -, rfl⟩
    · rw [hlen, List.getElem?_eq_none le_rfl] at hd
      cases hd
    · rfl
  have hopen : ∀ side, net'.committed c.transfer side = false := by
    intro side
    by_contra hcommitted
    rw [h'.commits_of_committed hc (Bool.not_eq_false _ ▸ hcommitted)] at hcommits
    cases hcommits
  rw [outstanding, hopen, hopen]

theorem balanced_step (h : Atomic start net) (h' : Sound net') (ho : Outcome shardFor net a net')
    (ha : a ≠ .restart) : Balanced start net' := by
  rcases ho.shards with ⟨hshards, hhistory⟩ | ⟨i, f, hf, rfl⟩
  · have hmap : net.transfers.map net'.outstanding = net.transfers.map net.outstanding :=
      List.map_congr_left fun t _ => outstanding_congr fun side => by
        rw [committed, committed, hshards]
    have hsum : net'.sum = net.sum := by rw [sum, sum, hshards]
    have hputs : net'.putChanges = net.putChanges := by rw [putChanges, putChanges, hhistory]
    have hb := h.balanced
    unfold Network.Balanced at hb ⊢
    rw [hsum, hputs, hb]
    rcases ho.transfers ha with ⟨htransfers, -⟩ | ⟨fromKey, toKey, amount, -, -, -, htransfers⟩
    · rw [htransfers, hmap]
    · rw [htransfers, List.map_append, List.sum_append, hmap, List.map_singleton,
        List.sum_singleton, outstanding_begin h' ho htransfers, add_zero]
  · exact Balanced.execute h.balanced (h.sound.dropFlight i)

/-- **Every action of one coordinator keeps this.** -/
theorem step (h : Atomic start net) (hok : net.oneCoordinator shardFor a = true)
    (hs : net.step shardFor a = some net') : Atomic start net' := by
  have ho := Outcome.of_step hs
  have ha : a ≠ .restart := by
    rintro rfl
    cases hok
  have h' := h.sound.step (h.nameFree hok) hs
  refine ⟨h', h.balanced_step h' ho ha, h.moved_step ho, ?_, ?_, fun j t ht => ?_⟩
  · rcases ho.transfers ha with ⟨htransfers, -⟩ | ⟨_, _, _, rfl, hne, -, htransfers⟩
    · rw [htransfers]
      exact h.few
    · have hlen := ((Bool.or_eq_true _ _).mp hok).resolve_left (by simp [hne])
      have hlen : net.transfers.length < 2 ^ 64 := by simpa [transfers] using hlen
      rw [htransfers, List.length_append]
      exact hlen
  · rcases ho.transfers ha with ⟨htransfers, hseq⟩ | ⟨_, _, _, -, -, hseq, htransfers⟩
    · rw [htransfers, hseq]
      exact h.seq
    · rw [htransfers, hseq, UInt64.toNat_add, h.seq]
      simp
  · rcases ho.transfers ha with ⟨htransfers, -⟩ | ⟨_, _, _, -, -, -, htransfers⟩
    · exact h.name j t (htransfers ▸ ht)
    · rw [htransfers] at ht
      rcases Table.getElem?_concat_eq_some.mp ht with ht | ⟨rfl, rfl⟩
      · exact h.name j t ht
      · exact h.nextTx_eq

/-- What is aborted at one shard is committed at none. -/
theorem not_committed_of_aborted (h : Atomic start net) {s s' : Fin n} {tx : String}
    (haborted : (net.shards s).phase tx = .aborted) : (net.shards s').phase tx ≠ .committed := by
  intro hcommitted
  obtain ⟨j, c, side, hc, rfl, -, hallows⟩ := h.sound.phase s tx (by simp [haborted])
  obtain ⟨j', c', side', hc', htx, -, hallows'⟩ := h.sound.phase s' c.transfer.tx
    (by simp [hcommitted])
  obtain rfl := h.eq_of_tx (transfers_getElem? hc') (transfers_getElem? hc) htx
  obtain rfl := Option.some.inj (hc'.symm.trans hc)
  rw [haborted] at hallows
  rw [hcommitted] at hallows'
  have haborts : c'.stage.aborts = true := hallows
  rw [Stage.not_aborts_of_commits hallows'] at haborts
  cases haborts

end Atomic

namespace Network

variable {shardFor : String → Fin n}

/-- **Transfers of one coordinator are atomic**, in every state of every run with no more transfers
than numbers: no transaction is both committed and aborted, an aborted one has changed no balance,
and the balances add up. A transfer that counts as outstanding there is still prepared at the shard
where it is not committed. -/
theorem atomic {maxKeys : ℕ} {balances : Fin n → Finmap fun _ : String => BitVec 64}
    {acts : List Action} {net : Network n}
    (h : Run (step shardFor) (oneCoordinator shardFor) (init maxKeys balances) acts net) :
    (∀ s s' tx, (net.shards s).decided.lookup tx = some .commit →
      (net.shards s').decided.lookup tx ≠ some .abort) ∧
    (∀ s tx, (net.shards s).decided.lookup tx = some .abort → ∀ e ∈ net.history,
      e.command.op.ofTx = true → e.command.tx = tx → e.after.balances = e.before.balances) ∧
    net.sum = (init maxKeys balances).sum + net.putChanges +
      (net.transfers.map net.outstanding).sum ∧
    ∀ t ∈ net.transfers, ∀ side, net.committed t side = true →
      net.committed t side.other = false →
      (net.shards (t.shard side.other)).prepared.lookup t.tx =
        some (t.command .prepare side.other) := by
  have hI : Atomic (init maxKeys balances).sum net :=
    h.invariant (I := Atomic _) (fun _ _ _ hI hok hs => hI.step hok hs) (.init maxKeys balances)
  refine ⟨fun s s' tx hcommit habort => ?_, fun s tx habort e he hop htx => ?_, hI.balanced,
    fun t ht side hcommitted hopen => ?_⟩
  · exact hI.not_committed_of_aborted (Machine.phase_of_abort habort)
      (Machine.phase_eq_committed_iff.mpr hcommit)
  · by_contra hne
    exact hI.not_committed_of_aborted (Machine.phase_of_abort habort)
      (htx ▸ hI.moved e he hop hne)
  · obtain ⟨j, hj⟩ := List.mem_iff_getElem?.mp ht
    obtain ⟨c, hc, rfl⟩ := Option.map_eq_some_iff.mp
      ((List.getElem?_map (f := (·.transfer)) (l := net.calls) ..).symm.trans hj)
    exact hI.sound.prepared_of_committed hc hcommitted hopen

/-- Four accounts on four shards. -/
def fourShards (key : String) : Fin 4 :=
  if key = "A" then 0 else if key = "B" then 1 else if key = "C" then 2 else 3

def hundreds : Fin 4 → Finmap fun _ : String => BitVec 64
  | 0 => Finmap.singleton "A" 100
  | 1 => Finmap.singleton "B" 100
  | 2 => Finmap.singleton "C" 100
  | 3 => Finmap.singleton "D" 100

/-- Both shards of a transfer have voted YES, the commit reaches the first, and the second is not
reached. -/
def halfCommitted : List Action :=
  [.transfer "A" "B" 30, .execute 0, .answer 0, .execute 0, .answer 0, .execute 0, .answer 0,
    .lose 0, .fail 0 "timeout"]

/-- The sum lacks what `A` has paid and `B` has still prepared. -/
theorem atomic_halfCommitted :
    ∃ net : Network 4,
      Run (step fourShards) (oneCoordinator fourShards) (init 0 hundreds) halfCommitted net ∧
      net.sum = 370 ∧
      net.sum = (init 0 hundreds).sum + net.putChanges + (net.transfers.map net.outstanding).sum ∧
      ∀ t ∈ net.transfers, (net.shards t.target).prepared.lookup t.tx =
        some (t.command .prepare .target) := by
  obtain ⟨net, hrun, hend⟩ := Run.exists_of_exec_map (step fourShards) (oneCoordinator fourShards)
    (init 0 hundreds) halfCommitted
    (fun net => (net.sum, net.transfers.map fun t =>
      (net.committed t .source, net.committed t .target)))
    (370, [(true, false)]) (by decide +kernel)
  obtain ⟨hsum, hcommitted⟩ := Prod.mk.inj hend
  obtain ⟨-, -, hbalanced, hprepared⟩ := atomic hrun
  refine ⟨net, hrun, hsum, hbalanced, fun t ht => ?_⟩
  have hmem := List.mem_map_of_mem
    (f := fun t => (net.committed t .source, net.committed t .target)) ht
  rw [hcommitted, List.mem_singleton] at hmem
  obtain ⟨hsource, htarget⟩ := Prod.mk.inj hmem
  exact hprepared t ht .source hsource htarget

/-! ## The name comes round -/

/-- No second coordinator is started. -/
def sameProcess (_ : Network n) (a : Action) : Bool := a ≠ .restart

/-- The first coordinator is at work, and exactly these requests are in flight. -/
structure Still (net : Network n) (shards : Fin n → Machine) (seq : UInt64)
    (flights : List (Flight n)) : Prop where
  shards : net.shards = shards
  seq : net.seq = seq
  flights : net.flights = flights
  incarnation : net.incarnation = 0

end Network

/-- A call after the answer to its request. -/
def Call.goOn (c : Call n) (err : Option String) : Call n :=
  { c with stage := c.stage.next c.transfer err, turn := c.turn + 1, answer := none }

namespace Network.Still

variable {shardFor : String → Fin n} {net : Network n} {shards : Fin n → Machine} {seq : UInt64}
  {j : ℕ} {c : Call n} {op : Op} {side : Side}

/-- The call that a coordinator begins after `seq` others. -/
def first (shardFor : String → Fin n) (seq : UInt64) (fromKey toKey : String)
    (amount : BitVec 64) : Call n :=
  ⟨⟨txName (seq + 1).toNat, shardFor fromKey, fromKey, shardFor toKey, toKey, amount⟩,
    .prepare .source, 0, none, 0⟩

/-- A transfer begins. -/
theorem transfer (h : net.Still shards seq []) {fromKey toKey : String}
    (hne : shardFor fromKey ≠ shardFor toKey) (amount : BitVec 64) :
    ∃ net' j, Run (step shardFor) sameProcess net [.transfer fromKey toKey amount] net' ∧
      net'.calls[j]? = some (first shardFor seq fromKey toKey amount) ∧
      net'.Still shards (seq + 1)
        (requestOf j (first shardFor seq fromKey toKey amount)).toList := by
  have hfirst : (⟨⟨net.nextTx, shardFor fromKey, fromKey, shardFor toKey, toKey, amount⟩,
      .prepare .source, 0, none, net.incarnation⟩ : Call n) =
        first shardFor seq fromKey toKey amount := by
    rw [nextTx, h.seq, h.incarnation]
    rfl
  refine ⟨_, net.calls.length, .cons rfl (if_neg hne) (.nil _), ?_, h.shards,
    congrArg (· + 1) h.seq, ?_, h.incarnation⟩
  · rw [getElem?_begin, if_pos rfl, hfirst]
  · simp only [Network.begin, h.flights, hfirst, List.nil_append]

/-- A call that has its answer goes on. -/
theorem enter (h : net.Still shards seq []) (hc : net.calls[j]? = some c) (err : Option String) :
    (net.enter j c (c.stage.next c.transfer err)).calls[j]? = some (c.goOn err) ∧
      (net.enter j c (c.stage.next c.transfer err)).Still shards seq
        (requestOf j (c.goOn err)).toList := by
  refine ⟨?_, h.shards, h.seq, ?_, h.incarnation⟩
  · rw [getElem?_enter hc, if_pos rfl]
    rfl
  · simp only [Network.enter, h.flights, List.nil_append]
    rfl

/-- The request of a call is executed, and the call reads the answer. -/
theorem served (shardFor : String → Fin n) (op : Op) (side : Side) (err : Option String)
    (h : net.Still shards seq (requestOf j c).toList) (hc : net.calls[j]? = some c)
    (hinc : c.incarnation = 0) (hreq : c.stage.request = some (op, side)) {out : Machine × Result}
    (hout : (shards (c.transfer.shard side)).applyLocked (c.transfer.command op side) = out)
    (herr : out.2.err = err) :
    ∃ net', Run (step shardFor) sameProcess net [.execute 0, .answer j] net' ∧
      net'.calls[j]? = some (c.goOn err) ∧
      net'.Still (Function.update shards (c.transfer.shard side) out.1) seq
        (requestOf j (c.goOn err)).toList := by
  subst hout herr
  set f : Flight n := ⟨some j, .call c.turn, c.transfer.shard side, c.transfer.command op side⟩
    with hf
  have hflights : net.flights = [f] := by
    rw [h.flights, requestOf, hreq]
    rfl
  have hexecute : net.step shardFor (.execute 0) = some ((net.dropFlight 0).execute f) := by
    rw [step, hflights]
    rfl
  have hstill : ((net.dropFlight 0).execute f).Still (Function.update shards f.shard
      ((shards f.shard).applyLocked f.command).1) seq [] := by
    refine ⟨by simp only [execute, dropFlight, h.shards, hf], h.seq, ?_, h.incarnation⟩
    simp only [execute, dropFlight, hflights]
    rfl
  have hcall : ((net.dropFlight 0).execute f).calls[j]? =
      some { c with answer := some ((shards f.shard).applyLocked f.command).2.err } := by
    simp only [execute, dropFlight, h.shards, hf]
    simp [hc, receive]
  have hanswer : ((net.dropFlight 0).execute f).step shardFor (.answer j) =
      some (((net.dropFlight 0).execute f).enter j
        { c with answer := some ((shards f.shard).applyLocked f.command).2.err }
        (c.stage.next c.transfer ((shards f.shard).applyLocked f.command).2.err)) := by
    simp only [step, hcall, hreq]
    exact if_pos (hinc.trans h.incarnation.symm)
  exact ⟨_, .cons rfl hexecute (.cons rfl hanswer (.nil _)), hstill.enter hcall _⟩

/-- The request of a call is lost, and the call gives it up. -/
theorem lost (shardFor : String → Fin n) (h : net.Still shards seq (requestOf j c).toList)
    (hc : net.calls[j]? = some c) (hinc : c.incarnation = 0)
    (hreq : c.stage.request = some (op, side)) (err : String) :
    ∃ net', Run (step shardFor) sameProcess net [.lose 0, .fail j err] net' ∧
      net'.calls[j]? = some (c.goOn (some err)) ∧
      net'.Still shards seq (requestOf j (c.goOn (some err))).toList := by
  have hflights : net.flights = [⟨some j, .call c.turn, c.transfer.shard side,
      c.transfer.command op side⟩] := by
    rw [h.flights, requestOf, hreq]
    rfl
  have hlose : net.step shardFor (.lose 0) = some (net.dropFlight 0) := by
    rw [step, hflights]
    rfl
  have hstill : (net.dropFlight 0).Still shards seq [] :=
    ⟨h.shards, h.seq, by rw [dropFlight, hflights]; rfl, h.incarnation⟩
  have hcall : (net.dropFlight 0).calls[j]? = some c := hc
  have hfail : (net.dropFlight 0).step shardFor (.fail j err) =
      some ((net.dropFlight 0).enter j c (c.stage.next c.transfer (some err))) := by
    simp only [step, hcall]
    exact if_pos ⟨by simp [hreq], hinc.trans h.incarnation.symm⟩
  exact ⟨_, .cons rfl hlose (.cons rfl hfail (.nil _)), hstill.enter hcall (some err)⟩

/-- A transfer of which every request is lost. -/
theorem unreached (h : net.Still shards seq []) {fromKey toKey : String}
    (hne : shardFor fromKey ≠ shardFor toKey) :
    ∃ acts net', Run (step shardFor) sameProcess net acts net' ∧
      net'.Still shards (seq + 1) [] := by
  obtain ⟨net₁, j, hrun₁, hc₁, h₁⟩ := h.transfer hne 0
  obtain ⟨net₂, hrun₂, hc₂, h₂⟩ := h₁.lost shardFor hc₁ rfl rfl "timeout"
  obtain ⟨net₃, hrun₃, hc₃, h₃⟩ := h₂.lost shardFor hc₂ rfl rfl "timeout"
  obtain ⟨net₄, hrun₄, hc₄, h₄⟩ := h₃.lost shardFor hc₃ rfl rfl "timeout"
  exact ⟨_, net₄, hrun₁.append (hrun₂.append (hrun₃.append hrun₄)), h₄⟩

/-- Any number of such transfers. -/
theorem unreached_many (h : net.Still shards seq []) {fromKey toKey : String}
    (hne : shardFor fromKey ≠ shardFor toKey) (k : ℕ) :
    ∃ acts net', Run (step shardFor) sameProcess net acts net' ∧
      net'.Still shards (seq + UInt64.ofNat k) [] := by
  induction k with
  | zero => exact ⟨[], net, .nil _, by simpa using h⟩
  | succ k ih =>
    obtain ⟨acts, net', hrun, h'⟩ := ih
    obtain ⟨acts', net'', hrun', h''⟩ := h'.unreached hne
    refine ⟨acts ++ acts', net'', hrun.append hrun', ?_⟩
    rw [UInt64.ofNat_add, ← UInt64.add_assoc]
    exact h''

end Network.Still

namespace Network

/-- The shards after `halfCommitted`. -/
def halfShards : Fin 4 → Machine
  | 0 => (Machine.new 0 (Finmap.singleton "A" 70)).decide "tx1" .commit
  | 1 => (Machine.new 0 (Finmap.singleton "B" 100)).hold ⟨.prepare, "B", "", 30, "tx1"⟩
  | 2 => Machine.new 0 (Finmap.singleton "C" 100)
  | 3 => Machine.new 0 (Finmap.singleton "D" 100)

/-- **After `2 ^ 64` transfers the first name comes again.** The first transfer is committed at `A`
and not yet at `B`. The one that has its name asks `C` and `A`, is refused by `A`, where the name is
settled, and aborts it at `C`: one transaction is committed at `A` and aborted at `C`. -/
theorem name_comes_round :
    ∃ acts net, Run (step fourShards) sameProcess (init 0 hundreds) acts net ∧
      (net.shards 0).decided.lookup "tx1" = some .commit ∧
      (net.shards 2).decided.lookup "tx1" = some .abort := by
  have hAB : fourShards "A" ≠ fourShards "B" := by decide
  have hCA : fourShards "C" ≠ fourShards "A" := by decide
  obtain ⟨net₀, hrun₀, hend⟩ := Run.exists_of_exec_map (step fourShards) sameProcess
    (init 0 hundreds) halfCommitted (fun net => (net.shards, net.seq, net.flights, net.incarnation))
    (halfShards, 1, [], 0) (by decide +kernel)
  simp only [Prod.mk.injEq] at hend
  obtain ⟨hshards, hseq, hflights, hinc⟩ := hend
  have h₀ : net₀.Still halfShards 1 [] := ⟨hshards, hseq, hflights, hinc⟩
  obtain ⟨acts, net₁, hrun₁, h₁⟩ := h₀.unreached_many hAB (2 ^ 64 - 1)
  -- the next transaction is `tx1`: `C` votes YES, `A` refuses, and `C` aborts
  obtain ⟨net₂, j, hrun₂, hc₂, h₂⟩ := h₁.transfer hCA 30
  obtain ⟨net₃, hrun₃, hc₃, h₃⟩ := h₂.served fourShards .prepare .source none hc₂ rfl rfl rfl
    (by decide +kernel)
  obtain ⟨net₄, hrun₄, hc₄, h₄⟩ := h₃.served fourShards .prepare .target
    (some "unknown transaction: tx1 was already decided (commit)") hc₃ rfl rfl rfl
    (by decide +kernel)
  obtain ⟨net, hrun, -, h⟩ := h₄.served fourShards .abort .source none hc₄ rfl rfl rfl
    (by decide +kernel)
  refine ⟨_, net, hrun₀.append (hrun₁.append (hrun₂.append (hrun₃.append (hrun₄.append hrun)))), ?_⟩
  rw [h.shards]
  decide +kernel

end Network

end PaxosPayments.ControlPlane
