import PaxosPayments.ControlPlane.Frontend
import PaxosPayments.Paxos.OneCopy

/-!
# A cluster of replicated shards is a network of machines

A `Cluster` refines a `Network` (`refines_network`), under the conditions under which the replicas
of every shard agree. A shard of the network is the machine of the replica that has applied most,
and a request is executed there when a replica applies its command for the first time. What is in
flight in the network are the requests that have not been executed (`Linked.flights`): those that
look for a leader, those that wait, and those that have returned with an error and may still be
executed, or never will.
-/

namespace PaxosPayments.ControlPlane

open Paxos (NodeID Replicated ReplicaGroup)

variable {n : ℕ}

namespace Cluster

/-- The request has not been executed. -/
def unexecuted (o : Fin n → Linear.Object Machine Result) (r : Request n) : Bool :=
  match r.ticket with
  | none => true
  | some k => ((o r.shard).answers k).isNone

/-- Call `k` of a shard takes effect. -/
def executeAt (o : Fin n → Linear.Object Machine Result) (s : Fin n) (k : ℕ) (command : Command) :
    Fin n → Linear.Object Machine Result :=
  Function.update o s ((o s).execute Machine.applyLocked k command)

theorem answers_executeAt_self (o : Fin n → Linear.Object Machine Result) (s : Fin n) (k : ℕ)
    (command : Command) :
    (executeAt o s k command s).answers k = some ((o s).state.applyLocked command).2 := by
  rw [executeAt, Function.update_self]
  exact Linear.Object.answers_execute_self

theorem answers_executeAt_of_ne (o : Fin n → Linear.Object Machine Result) {s s' : Fin n}
    {k k' : ℕ} (command : Command) (h : s' = s → k' ≠ k) :
    (executeAt o s k command s').answers k' = (o s').answers k' := by
  by_cases hs : s' = s
  · subst hs
    rw [executeAt, Function.update_self]
    exact Linear.Object.answers_execute_of_ne (h rfl)
  · rw [executeAt, Function.update_of_ne hs]

/-- With these machines, a gateway, what has been proposed to the shards, and the requests are the
network. -/
structure Linked (f : Frontend n) (proposed : Fin n → List Command) (requests : List (Request n))
    (o : Fin n → Linear.Object Machine Result) (net : Network n) : Prop where
  machine : ∀ s, net.shards s = (o s).state
  front : net.frontend.clear = f
  flights : net.flights.Perm ((requests.filter (unexecuted o)).map Request.toFlight)
  ticket : ∀ r ∈ requests, ∀ k, r.ticket = some k → (proposed r.shard)[k]? = some r.command
  owner : ∀ s k, k < (proposed s).length → ∃ r ∈ requests, r.shard = s ∧ r.ticket = some k
  distinct : ∀ (i i' : ℕ) r r' k, requests[i]? = some r → requests[i']? = some r' →
    r.shard = r'.shard → r.ticket = some k → r'.ticket = some k → i = i'
  addresses : f.Addresses (requests.map Request.toFlight)
  answer : ∀ r ∈ requests, ∀ k res, r.ticket = some k → (o r.shard).answers k = some res →
    ∀ d, r.toFlight.address = some d → net.HasAnswer res.err d

/-- The request, whether or not it has returned. -/
def forget (r : Request n) : Request n := { r with waits := true }

/-- The commands that have been proposed to a shard. -/
def proposed (c : Cluster n) (s : Fin n) : List Command :=
  (c.groups s).calls.map fun call => call.command

/-- The replicas of every shard are one machine, and with these machines the cluster is the network.
-/
structure Implements (cfg : Fin n → Paxos.Config) (codec : Codec) (start : Fin n → Machine)
    (c : Cluster n) (o : Fin n → Linear.Object Machine Result) (net : Network n) : Prop where
  shard : ∀ s, ∃ log, (c.groups s).Refines (cfg s) (shardMachine codec) (start s) log (o s)
  linked : Linked c.front c.proposed (c.requests.map forget) o net

/-- No replica of the shard has applied more. -/
def Foremost (c : Cluster n) (s : Fin n) (p : NodeID) : Prop :=
  ∀ q, ((c.groups s).group.nodes q).appliedIndex ≤ ((c.groups s).group.nodes p).appliedIndex

/-- The steps of the replicas are those under which they agree. -/
def agreeing (cfg : Fin n → Paxos.Config) (codec : Codec) (c : Cluster n) : Action n → Bool
  | .forward i id =>
    match c.requests[i]? with
    | none => true
    | some r =>
      (c.groups r.shard).agreeing (cfg r.shard) (shardMachine codec) (.propose id r.command)
  | .shard s a => (c.groups s).agreeing (cfg s) (shardMachine codec) a
  | _ => true

namespace Linked

variable {f f' : Frontend n} {proposed : Fin n → List Command} {requests : List (Request n)}
  {o : Fin n → Linear.Object Machine Result} {net net' : Network n} {shardFor : String → Fin n}

/-- The gateway goes on, and so does that of the network. -/
theorem send (h : Linked f proposed requests o net) {fs : List (Flight n)}
    (hfollows : net.Follows net' f' fs) (hemits : f.Emits f' fs)
    (hstep : net' = net ∨ ∃ a, (∀ i, a ≠ .execute i) ∧ net.step shardFor a = some net') :
    Linked f' proposed (requests ++ fs.map fun q => ⟨q, none, true⟩) o net' where
  machine s := by
    rw [hfollows.shards]
    exact h.machine s
  front := hfollows.front
  flights := by
    have hnew : ∀ r ∈ fs.map fun q => (⟨q, none, true⟩ : Request n), unexecuted o r = true := by
      intro r hr
      obtain ⟨q, -, rfl⟩ := List.mem_map.mp hr
      rfl
    rw [hfollows.flights, List.filter_append, List.filter_eq_self.mpr hnew, List.map_append,
      List.map_map]
    exact h.flights.append (List.Perm.of_eq (List.map_id _).symm)
  ticket r hr k hk := by
    rcases List.mem_append.mp hr with hr | hr
    · exact h.ticket r hr k hk
    · obtain ⟨q, -, rfl⟩ := List.mem_map.mp hr
      cases hk
  owner s k hk := by
    obtain ⟨r, hr, hrest⟩ := h.owner s k hk
    exact ⟨r, List.mem_append_left _ hr, hrest⟩
  distinct i i' r r' k hr hr' hshard hk hk' := by
    have hold : ∀ {i : ℕ} {r : Request n}, r.ticket = some k →
        (requests ++ fs.map fun q => (⟨q, none, true⟩ : Request n))[i]? = some r →
          requests[i]? = some r := by
      intro i r hk hr
      rcases Nat.lt_or_ge i requests.length with hlt | hge
      · exact (List.getElem?_append_left hlt).symm.trans hr
      · rw [List.getElem?_append_right hge, List.getElem?_map] at hr
        obtain ⟨q, -, rfl⟩ := Option.map_eq_some_iff.mp hr
        cases hk
    exact h.distinct i i' r r' k (hold hk hr) (hold hk' hr') hshard hk hk'
  addresses := by
    have hmap : (requests ++ fs.map fun q => (⟨q, none, true⟩ : Request n)).map Request.toFlight =
        requests.map Request.toFlight ++ fs := by
      rw [List.map_append, List.map_map]
      exact congrArg _ (List.map_id _)
    rw [hmap]
    exact h.addresses.emit hemits
  answer r hr k res hk hres d hd := by
    rcases List.mem_append.mp hr with hr | hr
    · have hanswer := h.answer r hr k res hk hres d hd
      have hknown := h.addresses.known _ (List.mem_map_of_mem hr) d hd
      rcases hstep with rfl | ⟨a, ha, hstep⟩
      · exact hanswer
      · refine hanswer.kept hstep ha ?_
        rwa [← Frontend.turnAt_clear, h.front]
    · obtain ⟨q, -, rfl⟩ := List.mem_map.mp hr
      cases hk

/-- A request is proposed to the replicas of its shard. -/
theorem propose (h : Linked f proposed requests o net) {i : ℕ} {r : Request n}
    (hr : requests[i]? = some r) (hticket : r.ticket = none)
    (hnew : (o r.shard).answers (proposed r.shard).length = none) :
    Linked f (Function.update proposed r.shard (proposed r.shard ++ [r.command]))
      (requests.set i { r with ticket := some (proposed r.shard).length }) o net := by
  have hi : i < requests.length := (List.getElem?_eq_some_iff.mp hr).1
  -- a request is as before, or it is the one that is proposed
  have hget : ∀ (j : ℕ) r',
      (requests.set i { r with ticket := some (proposed r.shard).length })[j]? = some r' →
      (j ≠ i ∧ requests[j]? = some r') ∨
        (j = i ∧ r' = { r with ticket := some (proposed r.shard).length }) := by
    intro j r' hj
    rw [List.getElem?_set] at hj
    split_ifs at hj with hij
    · exact Or.inr ⟨hij.symm, (Option.some.inj hj).symm⟩
    · exact Or.inl ⟨Ne.symm hij, hj⟩
  have hmem : ∀ r' ∈ requests.set i { r with ticket := some (proposed r.shard).length },
      r' ∈ requests ∨ r' = { r with ticket := some (proposed r.shard).length } := by
    intro r' hr'
    obtain ⟨j, hj⟩ := List.mem_iff_getElem?.mp hr'
    rcases hget j r' hj with ⟨-, hj⟩ | ⟨-, rfl⟩
    · exact Or.inl (List.mem_of_getElem? hj)
    · exact Or.inr rfl
  have hlt : ∀ r' ∈ requests, ∀ k, r'.ticket = some k → k < (proposed r'.shard).length :=
    fun r' hr' k hk => (List.getElem?_eq_some_iff.mp (h.ticket r' hr' k hk)).1
  refine ⟨h.machine, h.front, ?_, ?_, ?_, ?_, ?_, ?_⟩
  · have hsame : unexecuted o { r with ticket := some (proposed r.shard).length } =
        unexecuted o r := by simp [unexecuted, hticket, hnew]
    rw [Table.map_filter_set_eq hr hsame rfl]
    exact h.flights
  · intro r' hr' k hk
    rcases hmem r' hr' with hr' | rfl
    · by_cases hshard : r'.shard = r.shard
      · rw [hshard, Function.update_self]
        exact Table.getElem?_concat (hshard ▸ h.ticket r' hr' k hk) _
      · rw [Function.update_of_ne hshard]
        exact h.ticket r' hr' k hk
    · obtain rfl := Option.some.inj hk
      rw [Function.update_self]
      exact List.getElem?_concat_length
  · intro s k hk
    have hkeep : ∀ r' ∈ requests, r'.shard = s → r'.ticket = some k →
        ∃ r' ∈ requests.set i { r with ticket := some (proposed r.shard).length },
          r'.shard = s ∧ r'.ticket = some k := by
      intro r' hr' hs hk
      obtain ⟨j, hj⟩ := List.mem_iff_getElem?.mp hr'
      have hij : i ≠ j := by
        rintro rfl
        obtain rfl := Option.some.inj (hr.symm.trans hj)
        cases hticket.symm.trans hk
      exact ⟨r', List.mem_of_getElem? ((List.getElem?_set_ne hij).trans hj), hs, hk⟩
    by_cases hs : s = r.shard
    · subst hs
      rw [Function.update_self, List.length_append, List.length_singleton] at hk
      rcases Nat.lt_succ_iff_lt_or_eq.mp hk with hk | rfl
      · obtain ⟨r', hr', hs, hrest⟩ := h.owner _ k hk
        exact hkeep r' hr' hs hrest
      · exact ⟨_, List.mem_set hi _, rfl, rfl⟩
    · rw [Function.update_of_ne hs] at hk
      obtain ⟨r', hr', hs, hrest⟩ := h.owner s k hk
      exact hkeep r' hr' hs hrest
  · intro j j' x x' k hx hx' hshard hk hk'
    have hnone : ∀ {y : Request n}, y ∈ requests → y.shard = r.shard →
        y.ticket ≠ some (proposed r.shard).length :=
      fun hy hs hk => absurd (hlt _ hy _ hk) (by rw [hs]; exact lt_irrefl _)
    rcases hget j x hx with ⟨-, hold⟩ | ⟨rfl, rfl⟩ <;>
      rcases hget j' x' hx' with ⟨-, hold'⟩ | ⟨rfl, rfl⟩
    · exact h.distinct j j' x x' k hold hold' hshard hk hk'
    · exact absurd (hk.trans hk'.symm) (hnone (List.mem_of_getElem? hold) hshard)
    · exact absurd (hk'.trans hk.symm) (hnone (List.mem_of_getElem? hold') hshard.symm)
    · rfl
  · have hmap : (requests.set i { r with ticket := some (proposed r.shard).length }).map
        Request.toFlight = requests.map Request.toFlight := Table.map_set_eq hr rfl
    rw [hmap]
    exact h.addresses
  · intro r' hr' k res hk hres
    rcases hmem r' hr' with hr' | rfl
    · exact h.answer r' hr' k res hk hres
    · obtain rfl := Option.some.inj hk
      cases hnew.symm.trans hres

/-- A command that has been proposed is executed in its shard, and so is the request. -/
theorem execute (h : Linked f proposed requests o net) (shardFor : String → Fin n) {s : Fin n}
    {k : ℕ} {command : Command} (hk : (proposed s)[k]? = some command)
    (hnone : (o s).answers k = none) :
    ∃ m net', net.step shardFor (.execute m) = some net' ∧
      Linked f proposed requests (executeAt o s k command) net' := by
  obtain ⟨r, hr, rfl, hticket⟩ := h.owner s k (List.getElem?_eq_some_iff.mp hk).1
  obtain rfl := Option.some.inj (hk.symm.trans (h.ticket r hr k hticket))
  obtain ⟨i, hi⟩ := List.mem_iff_getElem?.mp hr
  have hself := answers_executeAt_self o r.shard k r.command
  have hothers : ∀ (j : ℕ) r' k', j ≠ i → requests[j]? = some r' → r'.ticket = some k' →
      (executeAt o r.shard k r.command r'.shard).answers k' = (o r'.shard).answers k' := by
    intro j r' k' hj hr' hk'
    refine answers_executeAt_of_ne o r.command fun hshard => ?_
    rintro rfl
    exact hj (h.distinct j i r' r k' hr' hi hshard hk' hticket)
  -- the request is in flight, and the others stay there
  have hbefore : unexecuted o r = true := by simp [unexecuted, hticket, hnone]
  have hafter : unexecuted (executeAt o r.shard k r.command) r = false := by
    simp [unexecuted, hticket, hself]
  have hsame : ∀ (j : ℕ) r', j ≠ i → requests[j]? = some r' →
      unexecuted o r' = unexecuted (executeAt o r.shard k r.command) r' := by
    intro j r' hj hr'
    unfold unexecuted
    split
    · rfl
    · rename_i k' hk'
      rw [hothers j r' k' hj hr' hk']
  have hflights := h.flights.trans
    ((Table.perm_filter_of_flip hi hbefore hafter hsame).map Request.toFlight)
  rw [List.map_cons] at hflights
  obtain ⟨m, hm⟩ := List.mem_iff_getElem?.mp (hflights.mem_iff.mpr List.mem_cons_self)
  refine ⟨m, (net.dropFlight m).execute r.toFlight, by simp [Network.step, hm], fun s => ?_, ?_, ?_,
    h.ticket, h.owner, h.distinct, h.addresses, ?_⟩
  · simp only [Network.execute, Network.dropFlight, executeAt]
    by_cases hs : s = r.shard
    · subst hs
      rw [Function.update_self, Function.update_self, h.machine]
      rfl
    · rw [Function.update_of_ne hs, Function.update_of_ne hs, h.machine]
  · rw [Network.clear_execute]
    exact h.front
  · exact ((Table.perm_eraseIdx hm).trans hflights).cons_inv
  · intro r' hr' k' res hk' hres d hd
    obtain ⟨j, hj⟩ := List.mem_iff_getElem?.mp hr'
    by_cases hji : j = i
    · subst hji
      obtain rfl := Option.some.inj (hi.symm.trans hj)
      obtain rfl := Option.some.inj (hticket.symm.trans hk')
      obtain rfl := Option.some.inj (hself.symm.trans hres)
      rw [← h.machine]
      exact Network.hasAnswer_execute hd
    · rw [hothers j r' k' hji hj hk'] at hres
      have hunique : r.toFlight.address ≠ some d := by
        intro hd'
        exact hji (h.addresses.unique j i _ _ d ((List.getElem?_map ..).trans (congrArg _ hj))
          ((List.getElem?_map ..).trans (congrArg _ hi)) hd hd')
      exact Network.HasAnswer.execute (h.answer r' hr' k' res hk' hres d hd) hunique

end Linked

namespace Implements

variable {cfg : Fin n → Paxos.Config} {codec : Codec} {shardFor : String → Fin n}
  {start : Fin n → Machine} {c c' : Cluster n} {o : Fin n → Linear.Object Machine Result}
  {net net' : Network n} {i : ℕ} {r : Request n}

theorem init (cfg : Fin n → Paxos.Config) (codec : Codec) (maxKeys : ℕ)
    (balances : Fin n → Finmap fun _ : String => BitVec 64) :
    Implements cfg codec (fun s => .new maxKeys (balances s)) (Cluster.init maxKeys balances)
      (fun s => .init (.new maxKeys (balances s))) (Network.init maxKeys balances) where
  shard s := ⟨[], .init (cfg s) (shardMachine codec) _⟩
  linked :=
    { machine := fun _ => rfl
      front := rfl
      flights := by simp [Network.init, Cluster.init]
      ticket := fun r hr => by simp [Cluster.init] at hr
      owner := fun s k h => by simp [Cluster.init, proposed, Replicated.init] at h
      distinct := fun i i' r r' k h => by simp [Cluster.init] at h
      addresses := ⟨by simp [Cluster.init], by simp [Cluster.init]⟩
      answer := fun r hr => by simp [Cluster.init] at hr }

/-- The gateway goes on, and so does that of the network. -/
theorem send (h : Implements cfg codec start c o net) {f : Frontend n} {fs : List (Flight n)}
    (hfollows : net.Follows net' f fs) (hemits : c.front.Emits f fs)
    (hstep : net' = net ∨ ∃ a, (∀ i, a ≠ .execute i) ∧ net.step shardFor a = some net') :
    Implements cfg codec start (c.send (f, fs)) o net' := by
  refine ⟨h.shard, ?_⟩
  have hrequests : (c.send (f, fs)).requests.map forget =
      c.requests.map forget ++ fs.map fun q => ⟨q, none, true⟩ := by
    rw [Cluster.send, List.map_append, List.map_map]
    rfl
  rw [hrequests]
  exact h.linked.send hfollows hemits hstep

/-- A request returns, with the answer that has come or with an error. -/
theorem resume (h : Implements cfg codec start c o net) {err : Option String}
    (hr : c.requests[i]? = some r) (hs : c.resume shardFor i r err = some c')
    (hend : (∀ d, r.toFlight.address = some d → net.HasAnswer err d) ∨ err ≠ none) :
    ∃ net', (net' = net ∨ ∃ a, a.ends = true ∧ net.step shardFor a = some net') ∧
      Implements cfg codec start c' o net' := by
  obtain ⟨⟨f, fs⟩, hresume, rfl⟩ := Option.map_eq_some_iff.mp hs
  have hemits := Frontend.emits_of_resume hresume
  rw [← h.linked.front] at hresume
  obtain ⟨net', hstep, hfollows⟩ := Network.resume_of_frontend hresume hend
  refine ⟨net', hstep, ?_⟩
  have hforget : (c.requests.set i { r with waits := false }).map forget =
      c.requests.map forget := Table.map_set_eq hr rfl
  have hreturned : Implements cfg codec start
      { c with requests := c.requests.set i { r with waits := false } } o net :=
    ⟨h.shard, hforget ▸ h.linked⟩
  have hgateway : net' = net ∨ ∃ a, (∀ j, a ≠ .execute j) ∧ net.step shardFor a = some net' := by
    refine hstep.imp_right ?_
    rintro ⟨a, ha, hstep⟩
    refine ⟨a, fun j hj => ?_, hstep⟩
    subst hj
    cases ha
  exact hreturned.send hfollows hemits hgateway

/-- The commands that have been proposed to the shards when one of the groups is another. -/
theorem proposed_setGroup (c : Cluster n) (s : Fin n) (g : Replicated Command Machine Result) :
    (c.setGroup s g).proposed =
      Function.update c.proposed s (g.calls.map fun call => call.command) := by
  funext s'
  by_cases hs : s' = s
  · subst hs
    simp [proposed, setGroup]
  · simp [proposed, setGroup, hs]

theorem refines_setGroup (h : Implements cfg codec start c o net) {s : Fin n}
    {g : Replicated Command Machine Result} {log : List (ℕ × Paxos.Command)}
    {o' : Fin n → Linear.Object Machine Result} (hothers : ∀ s', s' ≠ s → o' s' = o s')
    (hg : g.Refines (cfg s) (shardMachine codec) (start s) log (o' s)) (s' : Fin n) :
    ∃ log, ((c.setGroup s g).groups s').Refines (cfg s') (shardMachine codec) (start s') log
      (o' s') := by
  by_cases hs : s' = s
  · subst hs
    have hgroup : (c.setGroup s' g).groups s' = g := Function.update_self ..
    rw [hgroup]
    exact ⟨log, hg⟩
  · have hgroup : (c.setGroup s g).groups s' = c.groups s' := Function.update_of_ne hs ..
    rw [hgroup, hothers s' hs]
    exact h.shard s'

/-- The replicas of a shard take a step, and at most one request is executed there. -/
theorem shardStep (h : Implements cfg codec start c o net) (shardFor : String → Fin n) {s : Fin n}
    {a : Paxos.Replicated.Action Command} {g : Replicated Command Machine Result}
    (hok : (c.groups s).agreeing (cfg s) (shardMachine codec) a = true)
    (hs : (c.groups s).step (cfg s) (shardMachine codec) a = some g)
    (hact : ∀ id command, a ≠ .propose id command) :
    ∃ o' net', (net' = net ∨ ∃ m, net.step shardFor (.execute m) = some net') ∧
      Implements cfg codec start (c.setGroup s g) o' net' := by
  obtain ⟨log, hlog⟩ := h.shard s
  obtain ⟨log', o', hg, hprogress⟩ := hlog.step hok hs
  have hproposed : (c.setGroup s g).proposed = c.proposed := by
    rw [proposed_setGroup, Function.update_eq_self_iff]
    have htickets := congrArg (List.map fun t => t.command) (Replicated.tickets_step hs hact)
    rw [List.map_map, List.map_map] at htickets
    exact htickets
  rcases hprogress with rfl | ⟨k, call, hcall, hnone, rfl⟩
  · refine ⟨o, net, Or.inl rfl, h.refines_setGroup (fun _ _ => rfl) hg, ?_⟩
    rw [hproposed]
    exact h.linked
  · have hk : (c.proposed s)[k]? = some call.command := by
      rw [proposed, List.getElem?_map, hcall]
      rfl
    obtain ⟨m, net', hstep, hlinked⟩ := h.linked.execute shardFor hk hnone
    have hself : executeAt o s k call.command s =
        (o s).execute Machine.applyLocked k call.command := Function.update_self ..
    refine ⟨executeAt o s k call.command, net', Or.inr ⟨m, hstep⟩, ?_, ?_⟩
    · exact h.refines_setGroup (fun s' hs' => Function.update_of_ne hs' ..) (hself ▸ hg)
    · rw [hproposed]
      exact hlinked

/-- A request is proposed to a replica. -/
theorem forward (h : Implements cfg codec start c o net) {id : NodeID}
    (hok : (c.groups r.shard).agreeing (cfg r.shard) (shardMachine codec)
      (.propose id r.command) = true)
    (hr : c.requests[i]? = some r) (hticket : r.ticket = none)
    (hs : c.forward cfg codec i r id = some c') : Implements cfg codec start c' o net := by
  simp only [Cluster.forward] at hs
  obtain ⟨g, hg, rfl⟩ := Option.map_eq_some_iff.mp hs
  obtain rfl := Option.some.inj hg
  obtain ⟨log, hlog⟩ := h.shard r.shard
  obtain ⟨new, hnew, hcalls⟩ := Replicated.calls_propose (cfg r.shard) (shardMachine codec)
    (c.groups r.shard) id r.command
  have hlength : (c.groups r.shard).calls.length = (c.proposed r.shard).length :=
    (List.length_map ..).symm
  have hfresh : (o r.shard).answers (c.proposed r.shard).length = none := by
    cases hres : (o r.shard).answers (c.proposed r.shard).length with
    | none => rfl
    | some res =>
      obtain ⟨t, -, ht, -⟩ := hlog.answered _ res hres
      have hlt := (List.getElem?_eq_some_iff.mp ht).1
      rw [List.length_map, hlength] at hlt
      exact absurd hlt (lt_irrefl _)
  refine ⟨h.refines_setGroup (fun _ _ => rfl) (hlog.propose hok).tick, ?_⟩
  have hget : (c.requests.map forget)[i]? = some (forget r) := by rw [List.getElem?_map, hr]; rfl
  have hlinked := h.linked.propose hget hticket hfresh
  rw [proposed_setGroup]
  have hlist : ((c.groups r.shard).propose (cfg r.shard) (shardMachine codec) id
      r.command).tick.calls.map (fun call => call.command) =
        c.proposed r.shard ++ [r.command] := by
    rw [Replicated.tick, hcalls, List.map_append, List.map_singleton, hnew]
    rfl
  have hset : (c.requests.set i { r with ticket := some (c.groups r.shard).calls.length }).map
      forget = (c.requests.map forget).set i
        { forget r with ticket := some (c.proposed r.shard).length } := by
    rw [List.map_set, hlength]
    rfl
  rw [hlist]
  change Linked _ _ ((c.requests.set i _).map forget) o net
  rw [hset]
  exact hlinked

/-- What the call of `Propose` of a request has returned is the answer that has come, or an error.
-/
theorem hasAnswer_of_outcome (h : Implements cfg codec start c o net) (hr : r ∈ c.requests)
    {stage : Paxos.CallStage Result} (hstage : c.stageOf r = some stage) {err : Option String}
    (hout : outcome r stage = some err) :
    (∀ d, r.toFlight.address = some d → net.HasAnswer err d) ∨ err ≠ none := by
  obtain ⟨k, hk, hstage⟩ := Option.bind_eq_some_iff.mp hstage
  obtain ⟨call, hcall, hstage⟩ := Option.bind_eq_some_iff.mp hstage
  obtain rfl := Option.some.inj hstage
  cases hst : call.stage with
  | returned time res =>
    obtain ⟨log, hlog⟩ := h.shard r.shard
    obtain ⟨res, rfl, hans⟩ := hlog.returned hcall hst
    rw [hst] at hout
    obtain rfl := Option.some.inj hout
    exact Or.inl (h.linked.answer (forget r) (List.mem_map_of_mem hr) k res hk hans)
  | failed e =>
    rw [hst] at hout
    obtain rfl := Option.some.inj hout
    exact Or.inr (Option.some_ne_none _)
  | starting | sent | waiting =>
    rw [hst] at hout
    cases hout

/-- **The cluster simulates the network**: every step is none of the network, or one. -/
theorem step (h : Implements cfg codec start c o net) {a : Action n}
    (hok : c.agreeing cfg codec a = true) (hs : c.step cfg codec shardFor a = some c') :
    ∃ o' net', (net' = net ∨ ∃ b, (b.begins = true → a = .front b) ∧
      net.step shardFor b = some net') ∧ Implements cfg codec start c' o' net' := by
  -- an action that ends a request or executes one begins nothing
  have hends : ∀ {net' : Network n}, (net' = net ∨ ∃ b : Network.Action, b.ends = true ∧
      net.step shardFor b = some net') → net' = net ∨ ∃ b : Network.Action,
        (b.begins = true → a = .front b) ∧ net.step shardFor b = some net' := by
    refine fun hstep => hstep.imp_right ?_
    rintro ⟨b, hb, hstep⟩
    refine ⟨b, fun hbegins => ?_, hstep⟩
    cases (Network.Action.begins_of_ends hb).symm.trans hbegins
  have hwaiting : ∀ {i : ℕ} {r : Request n}, c.waiting i = some r → c.requests[i]? = some r :=
    fun hr => (Option.filter_eq_some_iff.mp hr).1
  cases a with
  | front b =>
    simp only [Cluster.step] at hs
    obtain ⟨hb, hs⟩ := Option.ite_none_right_eq_some.mp hs
    obtain ⟨⟨f, fs⟩, hfront, rfl⟩ := Option.map_eq_some_iff.mp hs
    have hemits := Frontend.emits_of_step hfront
    rw [← h.linked.front] at hfront
    obtain ⟨net', hstep, hfollows⟩ := Network.step_of_frontend hb hfront
    have hnot : ∀ i, b ≠ .execute i := by
      rintro i rfl
      cases hb
    exact ⟨o, net', Or.inr ⟨b, fun _ => rfl, hstep⟩,
      h.send hfollows hemits (Or.inr ⟨b, hnot, hstep⟩)⟩
  | forward i id =>
    obtain ⟨r, hr, hs⟩ := Option.bind_eq_some_iff.mp hs
    obtain ⟨hticket, hs⟩ := Option.ite_none_right_eq_some.mp hs
    simp only [agreeing, hwaiting hr] at hok
    exact ⟨o, net, Or.inl rfl, h.forward hok (hwaiting hr) hticket hs⟩
  | unled i err =>
    obtain ⟨r, hr, hs⟩ := Option.bind_eq_some_iff.mp hs
    obtain ⟨-, hs⟩ := Option.ite_none_right_eq_some.mp hs
    obtain ⟨net', hstep, h'⟩ := h.resume (hwaiting hr) hs (Or.inr (Option.some_ne_none _))
    exact ⟨o, net', hends hstep, h'⟩
  | shard s act =>
    have hact : ∀ id command, act ≠ .propose id command := by
      rintro id command rfl
      cases hs
    have hs' : ((c.groups s).step (cfg s) (shardMachine codec) act).map (c.setGroup s) =
        some c' := by
      cases act with
      | propose id command => exact absurd rfl (hact id command)
      | group | respond | expire => exact hs
    obtain ⟨g, hg, rfl⟩ := Option.map_eq_some_iff.mp hs'
    obtain ⟨o', net', hstep, h'⟩ := h.shardStep shardFor hok hg hact
    refine ⟨o', net', hstep.imp_right ?_, h'⟩
    rintro ⟨m, hstep⟩
    exact ⟨.execute m, by simp [Network.Action.begins], hstep⟩
  | answer i =>
    obtain ⟨r, hr, hs⟩ := Option.bind_eq_some_iff.mp hs
    obtain ⟨stage, hstage, hs⟩ := Option.bind_eq_some_iff.mp hs
    obtain ⟨err, hout, hs⟩ := Option.bind_eq_some_iff.mp hs
    obtain ⟨net', hstep, h'⟩ := h.resume (hwaiting hr) hs
      (h.hasAnswer_of_outcome (List.mem_of_getElem? (hwaiting hr)) hstage hout)
    exact ⟨o, net', hends hstep, h'⟩
  | disconnect i err =>
    obtain ⟨r, hr, hs⟩ := Option.bind_eq_some_iff.mp hs
    obtain ⟨-, hs⟩ := Option.ite_none_right_eq_some.mp hs
    obtain ⟨net', hstep, h'⟩ := h.resume (hwaiting hr) hs (Or.inr (Option.some_ne_none _))
    exact ⟨o, net', hends hstep, h'⟩

/-- Runs of the cluster and of the network, where the clients and the gateway of the network may do
what those of the cluster may do. -/
theorem run {ok : Cluster n → Action n → Bool} {ok' : Network n → Network.Action → Bool}
    (hagreeing : ∀ c a, ok c a = true → c.agreeing cfg codec a = true)
    (hfront : ∀ (c : Cluster n) (net : Network n) b, net.frontend.clear = c.front →
      ok c (.front b) = true → ok' net b = true)
    (hquiet : ∀ net b, b.begins = false → ok' net b = true) {acts : List (Action n)}
    (hrun : Run (Cluster.step cfg codec shardFor) ok c acts c')
    (h : Implements cfg codec start c o net) :
    ∃ acts' net' o', Run (Network.step shardFor) ok' net acts' net' ∧
      Implements cfg codec start c' o' net' := by
  have hstep : ∀ c a c' net, (∃ o, Implements cfg codec start c o net) → ok c a = true →
      Cluster.step cfg codec shardFor c a = some c' →
      ∃ acts' net', Run (Network.step shardFor) ok' net acts' net' ∧
        ∃ o', Implements cfg codec start c' o' net' := by
    rintro c a c' net ⟨o, h⟩ hok hs
    obtain ⟨o', net', rfl | ⟨b, hb, hstep⟩, h'⟩ := h.step (hagreeing c a hok) hs
    · exact ⟨[], net', .nil _, o', h'⟩
    · refine ⟨[b], net', .cons ?_ hstep (.nil _), o', h'⟩
      cases hbegins : b.begins with
      | false => exact hquiet net b hbegins
      | true =>
        obtain rfl := hb hbegins
        exact hfront c net b h.linked.front hok
  obtain ⟨acts', net', hrun', o', h'⟩ := hrun.simulates hstep ⟨o, h⟩
  exact ⟨acts', net', o', hrun', h'⟩

/-- A replica that is ahead has the machine of the network. -/
theorem machine_eq (h : Implements cfg codec start c o net) {s : Fin n} {p : NodeID}
    (hp : c.Foremost s p) : (c.groups s).machines p = net.shards s := by
  obtain ⟨log, hlog⟩ := h.shard s
  obtain ⟨id, hid⟩ := hlog.ahead
  have hlength : log.length ≤ ((c.groups s).group.nodes p).appliedLog.length := by
    rw [← hid, (hlog.faithful.ordered id).length, (hlog.faithful.ordered p).length]
    exact hp id
  have heq := (hlog.longest p).eq_of_length_le hlength
  rw [hlog.faithful.machine p, heq, h.linked.machine s, hlog.state]

/-- There is such a replica. -/
theorem exists_foremost (h : Implements cfg codec start c o net) (s : Fin n) :
    ∃ p, c.Foremost s p := by
  obtain ⟨log, hlog⟩ := h.shard s
  obtain ⟨id, hid⟩ := hlog.ahead
  refine ⟨id, fun q => ?_⟩
  rw [← (hlog.faithful.ordered q).length, ← (hlog.faithful.ordered id).length, hid]
  exact (hlog.longest q).length_le

end Implements

variable {cfg : Fin n → Paxos.Config} {codec : Codec} {shardFor : String → Fin n} {maxKeys : ℕ}
  {balances : Fin n → Finmap fun _ : String => BitVec 64} {acts : List (Action n)} {c : Cluster n}

/-- **A cluster is a network.** For every run of a cluster there is a run of a network of single
machines that leaves the coordinator and its retries in the same state, up to answers that they have
not read, and every shard as the machine of any replica that has applied most. -/
theorem refines_network
    (hrun : Run (step cfg codec shardFor) (agreeing cfg codec) (init maxKeys balances) acts c) :
    ∃ acts' net, Run (Network.step shardFor) always (Network.init maxKeys balances) acts' net ∧
      net.frontend.clear = c.front ∧ ∀ s, (∃ p, c.Foremost s p) ∧
        ∀ p, c.Foremost s p → (c.groups s).machines p = net.shards s := by
  have halways : ∀ (net : Network n) (b : Network.Action), b.begins = false →
      always net b = true := fun _ _ _ => rfl
  obtain ⟨acts', net, o, hrun', h⟩ := (Implements.init cfg codec maxKeys balances).run
    (fun _ _ hok => hok) (fun _ _ _ _ _ => rfl) halways hrun
  exact ⟨acts', net, hrun', h.linked.front, fun s => ⟨h.exists_foremost s, fun p => h.machine_eq⟩⟩

/-- The number of shards in the examples. -/
local instance : NeZero 2 := ⟨by decide⟩

/-- `A` is on the first shard, everything else on the second. -/
def twoShards (key : String) : Fin 2 := if key = "A" then 0 else 1

def twoHundreds : Fin 2 → Finmap fun _ : String => BitVec 64
  | 0 => Finmap.singleton "A" 100
  | 1 => Finmap.singleton "B" 100

def threeEach (_ : Fin 2) : Paxos.Config := ReplicaGroup.threeReplicas

def elected (s : Fin 2) : List (Action 2) :=
  (ReplicaGroup.election "A" ["B"] 0).map fun a => .shard s (.group a "")

/-- Request `i` is proposed, accepted by `B`, applied and answered; `jid` will be the number of its
job and `k` that of its call. -/
def servedAt (s : Fin 2) (i jid k : ℕ) : List (Action 2) :=
  .forward i "A" :: ((ReplicaGroup.proposal "A" ["B"] jid []).tail.map
    (fun a => .shard s (.group a "")) ++
      [.shard s (.group (.apply "A") ""), .shard s (.respond k), .answer i])

/-- A transfer from shard to shard: two prepares and two commits. -/
def transferred : List (Action 2) :=
  elected 0 ++ elected 1 ++ [.front (.transfer "A" "B" 30)] ++ servedAt 0 0 3 0 ++
    servedAt 1 1 3 0 ++ servedAt 0 2 5 1 ++ servedAt 1 3 5 1

/-- `A` has paid at the replica that leads. -/
theorem refines_network_transferred : ∃ c acts net,
    Run (step threeEach .json twoShards) (agreeing threeEach .json) (init 0 twoHundreds)
      transferred c ∧
    (((c.groups 0).machines "A").balances.lookup "A",
      ((c.groups 0).machines "B").balances.lookup "A") = (some 70, some 100) ∧
    Run (Network.step twoShards) always (Network.init 0 twoHundreds) acts net ∧
    net.frontend.clear = c.front := by
  obtain ⟨c, hrun, hend⟩ := Run.exists_of_exec_map (step threeEach .json twoShards)
    (agreeing threeEach .json) (init 0 twoHundreds) transferred
    (fun c => (((c.groups 0).machines "A").balances.lookup "A",
      ((c.groups 0).machines "B").balances.lookup "A")) (some 70, some 100) (by decide +kernel)
  obtain ⟨acts, net, hrun', hfront, -⟩ := refines_network hrun
  exact ⟨c, acts, net, hrun, hend, hrun', hfront⟩

end Cluster

end PaxosPayments.ControlPlane
