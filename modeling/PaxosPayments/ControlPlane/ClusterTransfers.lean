import PaxosPayments.ControlPlane.Orphans
import PaxosPayments.ControlPlane.Replication

/-!
# Transfers on a cluster

What two-phase commit means for the replicas. A decision that any replica knows is known to the
network that the cluster refines (`Implements.decided_machine`), so the invariants of the network
hold of all replicas at once, however far each of them has come:

* no transaction is committed at one replica and aborted at another, of the same shard or of two
  (`replicas_atomic`), and what the coordinator reports about a transfer is so;
* the balances of the replicas that have applied most add up to what they were at the start, except
  for the transfers that are committed at one of their shards so far (`replicas_balanced`).

As in `Replication`, the replicas of every shard are assumed to agree, and none of their processes
ends. There is one coordinator, so the gateway is not restarted (`governed`).
-/

namespace PaxosPayments.ControlPlane

open Paxos (NodeID)

variable {n : ℕ}

/-! ## Along a log -/

namespace Machine

variable {codec : Codec} {start : Machine} {log log' : List (ℕ × Paxos.Command)} {tx : String}
  {op : Op}

/-- A slot leaves the machine as it is, or applies a command. -/
theorem applyEntry_cases (codec : Codec) (m : Machine) (raw : Paxos.Command) :
    ((shardMachine codec).applyEntry m raw).1 = m ∨
      ∃ c, ((shardMachine codec).applyEntry m raw).1 = (m.applyLocked c).1 := by
  unfold Paxos.StateMachine.applyEntry
  split_ifs
  · exact Or.inl rfl
  · change (m.apply codec raw).1 = m ∨ ∃ c, (m.apply codec raw).1 = (m.applyLocked c).1
    unfold Machine.apply
    split
    · exact Or.inl rfl
    · rename_i c _
      exact Or.inr ⟨c, rfl⟩

theorem Decisive.of_balances (maxKeys : ℕ) (balances : Finmap fun _ : String => BitVec 64) :
    (Machine.new maxKeys balances).Decisive :=
  ⟨fun _ _ => rfl, fun tx op h => by simp [Machine.new] at h⟩

theorem Decisive.after (h : start.Decisive) (codec : Codec) (log : List (ℕ × Paxos.Command)) :
    ((shardMachine codec).after start log).Decisive := by
  induction log with
  | nil => exact h
  | cons x log ih =>
    change ((shardMachine codec).applyEntry ((shardMachine codec).after start log) x.2).1.Decisive
    rcases applyEntry_cases codec ((shardMachine codec).after start log) x.2 with heq | ⟨c, heq⟩
    · rw [heq]
      exact ih
    · rw [heq]
      exact ih.applyLocked c

/-- A decision stays what it is along a log. -/
theorem Decisive.decided_after (h : start.Decisive) (hsuffix : log' <:+ log)
    (hd : ((shardMachine codec).after start log').decided.lookup tx = some op) :
    ((shardMachine codec).after start log).decided.lookup tx = some op := by
  obtain ⟨newer, rfl⟩ := hsuffix
  induction newer with
  | nil => exact hd
  | cons x newer ih =>
    change ((shardMachine codec).applyEntry
      ((shardMachine codec).after start (newer ++ log')) x.2).1.decided.lookup tx = some op
    rcases applyEntry_cases codec ((shardMachine codec).after start (newer ++ log')) x.2
      with heq | ⟨c, heq⟩
    · rw [heq]
      exact ih
    · rw [heq]
      exact (effect _ c).decided (h.after codec _) ih

end Machine

/-- **What a replica has decided, the network has decided.** -/
theorem Cluster.Implements.decided_machine {cfg : Fin n → Paxos.Config} {codec : Codec}
    {start : Fin n → Machine} {c : Cluster n} {o : Fin n → Linear.Object Machine Result}
    {net : Network n} (h : Implements cfg codec start c o net) {s : Fin n}
    (hstart : (start s).Decisive) {p : NodeID} {tx : String} {op : Op}
    (hd : ((c.groups s).machines p).decided.lookup tx = some op) :
    (net.shards s).decided.lookup tx = some op := by
  obtain ⟨log, hlog⟩ := h.shard s
  rw [hlog.faithful.machine p] at hd
  rw [h.linked.machine s, hlog.state]
  exact hstart.decided_after (hlog.longest p) hd

/-! ## Networks -/

namespace Network

variable {shardFor : String → Fin n} {net net' : Network n} {a : Action} {f : Flight n}

/-- A transfer whose call has returned without an error is committed at both of its shards. -/
theorem committed_of_returned {start : BitVec 64} (hatomic : Atomic start net) (hknown : Known net)
    (htold : Told net) {j : ℕ} {c : Call n} (hc : net.calls[j]? = some c)
    (hstage : c.stage = .returned .committed) (side : Side) :
    net.committed c.transfer side = true := by
  have hdecided : net.Decided c.transfer side :=
    htold.delivered j c side hc (by simp [Call.delivered, hstage])
  have hvoted : c.voted side = true := Call.voted_of_commits (by rw [hstage]; rfl)
  rcases hatomic.sound.vote j c side hc hvoted with hprepared | hcommitted
  · have hlookup := Machine.lookup_of_phase_prepared hprepared
    exact absurd ((hknown.decisive _).exclusive _ (by simp [hlookup])) hdecided
  · exact committed_iff.mpr hcommitted

def Action.puts : Action → Bool
  | .put _ _ => true
  | _ => false

/-- One coordinator, and no puts. -/
def transfersOnly (shardFor : String → Fin n) (net : Network n) (a : Action) : Bool :=
  net.oneCoordinator shardFor a && !a.puts

/-- No put has been executed, and none is in flight. -/
structure NoPuts (net : Network n) : Prop where
  flight : ∀ f ∈ net.flights, f.command.op ≠ .put
  history : ∀ e ∈ net.history, e.command.op ≠ .put

namespace NoPuts

theorem send (h : NoPuts net) (hf : f.command.op ≠ .put) : NoPuts (net.send f) := by
  refine ⟨fun g hg => ?_, h.history⟩
  rcases List.mem_append.mp hg with hg | hg
  · exact h.flight g hg
  · rw [List.mem_singleton.mp hg]
    exact hf

theorem enter (h : NoPuts net) (j : ℕ) (c : Call n) (stage : Stage) :
    NoPuts (net.enter j c stage) := by
  refine ⟨fun g hg => ?_, h.history⟩
  rcases List.mem_append.mp hg with hg | hg
  · exact h.flight g hg
  · simp only [requestOf] at hg
    cases stage with
    | returned => simp [Stage.request] at hg
    | prepare side | abort side | commit side =>
      simp only [Stage.request, Option.map_some, Option.toList_some, List.mem_singleton] at hg
      rw [hg]
      simp

theorem dropFlight (h : NoPuts net) (i : ℕ) : NoPuts (net.dropFlight i) :=
  ⟨fun g hg => h.flight g (List.mem_of_mem_eraseIdx hg), h.history⟩

theorem step (h : NoPuts net) (hok : net.transfersOnly shardFor a = true)
    (hs : net.step shardFor a = some net') : NoPuts net' := by
  have hretry : ∀ i r, NoPuts (net.setRetry i r) := fun i r => ⟨h.flight, h.history⟩
  cases a with
  | put => cases (Bool.and_eq_true_iff.mp hok).2
  | get key =>
    obtain rfl := Option.some.inj hs
    exact h.send (by simp)
  | transfer fromKey toKey amount =>
    simp only [Network.step] at hs
    split_ifs at hs with hshard
    · obtain rfl := Option.some.inj hs
      exact h.send (by simp)
    · obtain rfl := Option.some.inj hs
      have hsend := h.send (f := ⟨some net.calls.length, .call 0, shardFor fromKey,
        (⟨net.nextTx, shardFor fromKey, fromKey, shardFor toKey, toKey, amount⟩ :
          Transfer n).command .prepare .source⟩) (by simp)
      exact ⟨hsend.flight, hsend.history⟩
  | execute i =>
    obtain ⟨f, hf, rfl⟩ := Option.map_eq_some_iff.mp hs
    refine ⟨(h.dropFlight i).flight, fun e he => ?_⟩
    rcases List.mem_cons.mp he with rfl | he
    · exact h.flight f (List.mem_of_getElem? hf)
    · exact h.history e he
  | lose i =>
    obtain ⟨f, hf, rfl⟩ := Option.map_eq_some_iff.mp hs
    exact h.dropFlight i
  | answer j =>
    simp only [Network.step] at hs
    split at hs
    · cases hs
    · split at hs
      · obtain ⟨-, hs⟩ := Option.ite_none_right_eq_some.mp hs
        obtain rfl := Option.some.inj hs
        exact h.enter j _ _
      · cases hs
  | fail j err =>
    simp only [Network.step] at hs
    split at hs
    · cases hs
    · obtain ⟨-, hs⟩ := Option.ite_none_right_eq_some.mp hs
      obtain rfl := Option.some.inj hs
      exact h.enter j _ _
  | tick i =>
    simp only [Network.step] at hs
    split at hs
    · cases hs
    · split at hs
      · obtain ⟨-, hs⟩ := Option.ite_none_right_eq_some.mp hs
        obtain rfl := Option.some.inj hs
        exact (hretry i _).send (by simp)
      · cases hs
  | answerRetry i =>
    simp only [Network.step] at hs
    split at hs
    · cases hs
    · split at hs
      · obtain rfl := Option.some.inj hs
        exact hretry i _
      · obtain rfl := Option.some.inj hs
        exact hretry i _
      · cases hs
  | failRetry i =>
    simp only [Network.step] at hs
    split at hs
    · cases hs
    · split at hs
      · obtain rfl := Option.some.inj hs
        exact hretry i _
      · cases hs
  | stopRetry i =>
    simp only [Network.step] at hs
    split at hs
    · cases hs
    · obtain ⟨-, hs⟩ := Option.ite_none_right_eq_some.mp hs
      obtain rfl := Option.some.inj hs
      exact hretry i _
  | close =>
    obtain rfl := Option.some.inj hs
    exact ⟨h.flight, h.history⟩
  | restart => cases (Bool.and_eq_true_iff.mp hok).1

theorem putChanges_eq_zero (h : NoPuts net) : net.putChanges = 0 := by
  refine List.sum_eq_zero fun x hx => ?_
  obtain ⟨e, he, rfl⟩ := List.mem_map.mp hx
  exact if_neg (h.history e he)

end NoPuts

end Network

/-! ## Clusters -/

namespace Cluster

open Network (Decided)

/-- The replicas agree, and the clients and the gateway do what `ok` allows. -/
def governed (cfg : Fin n → Paxos.Config) (codec : Codec)
    (ok : Network n → Network.Action → Bool) (c : Cluster n) (a : Action n) : Bool :=
  c.agreeing cfg codec a && match a with
    | .front b => ok c.front.network b
    | _ => true

/-- The cluster as a network, with the replicas `top` for their shards. -/
def view (c : Cluster n) (top : Fin n → NodeID) : Network n :=
  { c.front.network with shards := fun s => (c.groups s).machines (top s) }

variable {cfg : Fin n → Paxos.Config} {codec : Codec} {shardFor : String → Fin n} {maxKeys : ℕ}
  {balances : Fin n → Finmap fun _ : String => BitVec 64} {acts : List (Action n)} {c : Cluster n}
  {net : Network n}

theorem length_calls (h : net.frontend.clear = c.front) :
    net.calls.length = c.front.network.calls.length := by
  rw [← h]
  exact (List.length_map ..).symm

theorem oneCoordinator_of_front (h : net.frontend.clear = c.front) (b : Network.Action) :
    net.oneCoordinator shardFor b = c.front.network.oneCoordinator shardFor b := by
  cases b with
  | transfer => rw [Network.oneCoordinator, Network.oneCoordinator, length_calls h]
  | put | get | execute | lose | answer | fail | tick | answerRetry | failRetry | stopRetry | close
  | restart => rfl

/-- The call of the network that a call of the gateway stands for. -/
theorem call_of_front (h : net.frontend.clear = c.front) {j : ℕ} {call : Call n}
    (hc : c.front.calls[j]? = some call) :
    ∃ call', net.calls[j]? = some call' ∧ call'.transfer = call.transfer ∧
      call'.stage = call.stage := by
  rw [← h] at hc
  obtain ⟨call', hcall', rfl⟩ := Option.map_eq_some_iff.mp ((List.getElem?_map ..).symm.trans hc)
  exact ⟨call', hcall', rfl, rfl⟩

/-- **Transfers are atomic at all replicas**, in every state of every run with one coordinator and
no more transfers than numbers. No transaction is committed at a replica and aborted at another, of
the same shard or of two. A transfer that is committed at any replica was decided so: one that is
reported as refused is committed nowhere. One that is reported as committed is committed at both
shards, at a replica at least. -/
theorem replicas_atomic
    (hrun : Run (step cfg codec shardFor) (governed cfg codec (Network.oneCoordinator shardFor))
      (init maxKeys balances) acts c) :
    (∀ s s' p p' tx, ((c.groups s).machines p).decided.lookup tx = some .commit →
      ((c.groups s').machines p').decided.lookup tx ≠ some .abort) ∧
    ∀ (j : ℕ) call side, c.front.calls[j]? = some call →
      (∀ p, ((c.groups (call.transfer.shard side)).machines p).decided.lookup call.transfer.tx =
        some .commit → call.stage.commits = true) ∧
      (call.stage = .returned .committed →
        ∃ p, ((c.groups (call.transfer.shard side)).machines p).decided.lookup call.transfer.tx =
          some .commit) := by
  obtain ⟨acts', net, o, hrun', h⟩ := (Implements.init cfg codec maxKeys balances).run
    (fun c a hok => (Bool.and_eq_true_iff.mp hok).1)
    (fun c net b hfront hok => (oneCoordinator_of_front hfront b).trans
      (Bool.and_eq_true_iff.mp hok).2)
    (fun net b hb => by cases b <;> first | rfl | cases hb) hrun
  have hatomic : Atomic (Network.init maxKeys balances).sum net :=
    hrun'.invariant (I := Atomic _) (fun _ _ _ hI hok hs => hI.step hok hs) (.init maxKeys balances)
  obtain ⟨-, hknown, htold⟩ : Addressed net ∧ Known net ∧ Told net := by
    refine hrun'.invariant (I := fun net => Addressed net ∧ Known net ∧ Told net)
      (fun net a net' h _ hs => ?_)
      ⟨.init maxKeys balances, .init maxKeys balances, .init maxKeys balances⟩
    obtain ⟨haddressed, hknown, htold⟩ := h
    have ht := Network.Transition.of_step hs
    exact ⟨haddressed.step hs, hknown.step haddressed ht.outcome, htold.step hknown haddressed ht⟩
  have hdecided : ∀ {s p tx op}, ((c.groups s).machines p).decided.lookup tx = some op →
      (net.shards s).decided.lookup tx = some op := fun hd =>
    h.decided_machine (Machine.Decisive.of_balances maxKeys _) hd
  refine ⟨fun s s' p p' tx hcommit habort => ?_, fun j call side hc => ⟨fun p hcommit => ?_, ?_⟩⟩
  · exact hatomic.not_committed_of_aborted (Machine.phase_of_abort (hdecided habort))
      (Machine.phase_eq_committed_iff.mpr (hdecided hcommit))
  · obtain ⟨call', hc', htransfer, hstage⟩ := call_of_front h.linked.front hc
    rw [← htransfer] at hcommit
    rw [← hstage]
    exact hatomic.sound.commits_of_committed hc' (decide_eq_true (hdecided hcommit))
  · intro hreturned
    obtain ⟨call', hc', htransfer, hstage⟩ := call_of_front h.linked.front hc
    obtain ⟨p, hp⟩ := h.exists_foremost (call.transfer.shard side)
    refine ⟨p, ?_⟩
    rw [h.machine_eq hp, ← htransfer]
    exact of_decide_eq_true
      (Network.committed_of_returned hatomic hknown htold hc' (hstage.trans hreturned) side)

/-- The number of shards in the examples. -/
local instance : NeZero 2 := ⟨by decide⟩

/-- The transfer is committed at the replicas that lead, and so aborted nowhere; the others have not
applied anything. -/
theorem replicas_atomic_transferred : ∃ c : Cluster 2,
    Run (step threeEach .json twoShards)
      (governed threeEach .json (Network.oneCoordinator twoShards)) (init 0 twoHundreds)
      transferred c ∧
    ((c.groups 0).machines "A").decided.lookup "tx1" = some .commit ∧
    ((c.groups 0).machines "B").decided.lookup "tx1" = none ∧
    ∀ s p, ((c.groups s).machines p).decided.lookup "tx1" ≠ some .abort := by
  obtain ⟨c, hrun, hend⟩ := Run.exists_of_exec_map (step threeEach .json twoShards)
    (governed threeEach .json (Network.oneCoordinator twoShards)) (init 0 twoHundreds) transferred
    (fun c => (((c.groups 0).machines "A").decided.lookup "tx1",
      ((c.groups 0).machines "B").decided.lookup "tx1")) (some .commit, none) (by decide +kernel)
  obtain ⟨hcommit, hnone⟩ := Prod.mk.inj hend
  exact ⟨c, hrun, hcommit, hnone, fun s p => (replicas_atomic hrun).1 0 s "A" p "tx1" hcommit⟩

/-- **Transfers move money and make none**, in every state of every run with one coordinator, no
more transfers than numbers, and no puts: whichever replicas one looks at that have applied most in
their shards, and there are some, the balances there add up to those at the start, except for the
transfers that are committed at exactly one of their shards. -/
theorem replicas_balanced
    (hrun : Run (step cfg codec shardFor) (governed cfg codec (Network.transfersOnly shardFor))
      (init maxKeys balances) acts c) :
    (∀ s, ∃ p, c.Foremost s p) ∧ ∀ top, (∀ s, c.Foremost s (top s)) →
      (c.view top).sum = (Network.init maxKeys balances).sum +
        ((c.view top).transfers.map (c.view top).outstanding).sum := by
  obtain ⟨acts', net, o, hrun', h⟩ := (Implements.init cfg codec maxKeys balances).run
    (fun c a hok => (Bool.and_eq_true_iff.mp hok).1)
    (fun c net b hfront hok => (congrArg (· && !b.puts) (oneCoordinator_of_front hfront b)).trans
      (Bool.and_eq_true_iff.mp hok).2)
    (fun net b hb => by cases b <;> first | rfl | cases hb) hrun
  refine ⟨h.exists_foremost, fun top htop => ?_⟩
  have hshards : (c.view top).shards = net.shards := funext fun s => h.machine_eq (htop s)
  have htransfers : (c.view top).transfers = net.transfers := by
    change c.front.calls.map Call.transfer = net.calls.map Call.transfer
    rw [← h.linked.front]
    exact (List.map_map ..).trans (List.map_congr_left fun c _ => rfl)
  have hatomic : Atomic (Network.init maxKeys balances).sum net :=
    hrun'.invariant (I := Atomic _)
      (fun _ _ _ hI hok hs => hI.step (Bool.and_eq_true_iff.mp hok).1 hs)
      (.init maxKeys balances)
  have hputs : net.NoPuts :=
    hrun'.invariant (I := Network.NoPuts) (fun _ _ _ hI hok hs => hI.step hok hs)
      ⟨by simp [Network.init], by simp [Network.init]⟩
  have hsum : (c.view top).sum = net.sum := by rw [Network.sum, Network.sum, hshards]
  have hout : (c.view top).outstanding = net.outstanding := by
    funext t
    simp only [Network.outstanding, Network.committed, hshards]
  have hbalanced := hatomic.balanced
  rw [Network.Balanced, hputs.putChanges_eq_zero, add_zero] at hbalanced
  rw [hsum, hout, htransfers, hbalanced]

/-- Between the two commits of a transfer. -/
def betweenCommits : List (Action 2) :=
  elected 0 ++ elected 1 ++ [.front (.transfer "A" "B" 30)] ++ servedAt 0 0 3 0 ++
    servedAt 1 1 3 0 ++ servedAt 0 2 5 1

/-- `A` has paid, and `B` has not been paid. -/
theorem replicas_balanced_between : ∃ c : Cluster 2,
    Run (step threeEach .json twoShards)
      (governed threeEach .json (Network.transfersOnly twoShards)) (init 0 twoHundreds)
      betweenCommits c ∧
    (((c.groups 0).machines "A").sum, ((c.groups 1).machines "A").sum) = (70, 100) ∧
    (∀ s, ∃ p, c.Foremost s p) ∧ ∀ top, (∀ s, c.Foremost s (top s)) →
      (c.view top).sum = (Network.init 0 twoHundreds).sum +
        ((c.view top).transfers.map (c.view top).outstanding).sum := by
  obtain ⟨c, hrun, hend⟩ := Run.exists_of_exec_map (step threeEach .json twoShards)
    (governed threeEach .json (Network.transfersOnly twoShards)) (init 0 twoHundreds)
    betweenCommits (fun c => (((c.groups 0).machines "A").sum, ((c.groups 1).machines "A").sum))
    (70, 100)
    (by decide +kernel)
  exact ⟨c, hrun, hend, replicas_balanced hrun⟩

end Cluster

end PaxosPayments.ControlPlane
