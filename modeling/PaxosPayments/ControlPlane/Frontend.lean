import PaxosPayments.ControlPlane.Cluster

/-!
# The gateway of a cluster and that of a network

In a `Network` the answer to a request is with the caller as soon as the request is executed. In a
`Cluster` the caller has it when `Propose` has returned. So the gateway of a network is that of a
cluster up to the answers that have come early (`Frontend.clear`), and what the gateway of a cluster
does is done by that of the network: when it begins something (`Network.step_of_frontend`), and when
a request has ended, with the answer that has come or with an error (`Network.resume_of_frontend`).

Requests have different return addresses (`Addresses`), as every request of a call and every commit
of a retry has a number of its own.
-/

namespace PaxosPayments.ControlPlane

variable {n : ℕ} {shardFor : String → Fin n}

/-! ## Return addresses -/

/-- Where the answer to a request goes: to a call or to a retry, if it still waits for that one. -/
inductive Address
  | call (j turn : ℕ)
  | retry (i turn : ℕ)

def Address.turn : Address → ℕ
  | call _ turn => turn
  | retry _ turn => turn

def Flight.address (q : Flight n) : Option Address :=
  match q.call, q.reply with
  | some j, .call turn => some (.call j turn)
  | _, .retry i turn => some (.retry i turn)
  | _, _ => none

/-! ## Answers that have come early -/

def Call.clear (c : Call n) : Call n := { c with answer := none }

def RetryStage.clear : RetryStage → RetryStage
  | .calling _ => .calling none
  | .pausing => .pausing
  | .done => .done

def Retry.clear (r : Retry) : Retry := { r with stage := r.stage.clear }

def Frontend.clear (f : Frontend n) : Frontend n :=
  { f with calls := f.calls.map Call.clear, retries := f.retries.map Retry.clear }

theorem Call.clear_receive (turn : ℕ) (err : Option String) (c : Call n) :
    (Network.receive turn err c).clear = c.clear := by
  unfold Network.receive
  split_ifs <;> rfl

theorem Retry.clear_receive (turn : ℕ) (err : Option String) (r : Retry) :
    (Network.receiveRetry turn err r).clear = r.clear := by
  unfold Network.receiveRetry
  split
  · rename_i answer hstage
    split_ifs
    · simp [clear, hstage, RetryStage.clear]
    · rfl
  · rfl
  · rfl

theorem Network.turn_receive (turn : ℕ) (err : Option String) (c : Call n) :
    (receive turn err c).turn = c.turn := by
  unfold receive
  split_ifs <;> rfl

theorem Network.turn_receiveRetry (turn : ℕ) (err : Option String) (r : Retry) :
    (receiveRetry turn err r).turn = r.turn := by
  unfold receiveRetry
  split
  · split_ifs <;> rfl
  · rfl
  · rfl

/-- The network does what the gateway of the cluster does, and sends the same requests. -/
structure Network.Follows (net net' : Network n) (f : Frontend n) (fs : List (Flight n)) :
    Prop where
  front : net'.frontend.clear = f
  flights : net'.flights = net.flights ++ fs
  shards : net'.shards = net.shards

namespace Network

variable {net : Network n} {f : Frontend n} {fs : List (Flight n)} {a : Action}

theorem calls_clear (net : Network n) (j : ℕ) :
    net.frontend.clear.network.calls[j]? = net.calls[j]?.map Call.clear := List.getElem?_map

theorem retries_clear (net : Network n) (i : ℕ) :
    net.frontend.clear.network.retries[i]? = net.retries[i]?.map Retry.clear := List.getElem?_map

/-- A retry goes on as `r'`. -/
theorem follows_setRetry {i : ℕ} {r d : Retry} (hclear : r.clear = d) :
    net.Follows (net.setRetry i r) (net.frontend.clear.network.setRetry i d).frontend [] := by
  refine ⟨?_, (List.append_nil _).symm, rfl⟩
  simp only [setRetry, frontend, Frontend.clear, Frontend.network, List.map_set, hclear]

/-- **What the gateway of a cluster begins, that of the network begins.** -/
theorem step_of_frontend (ha : a.begins = true)
    (h : net.frontend.clear.step shardFor a = some (f, fs)) :
    ∃ net', net.step shardFor a = some net' ∧ net.Follows net' f fs := by
  obtain ⟨net₁, hstep, heq⟩ := Option.map_eq_some_iff.mp h
  obtain ⟨rfl, rfl⟩ := Prod.mk.inj heq
  cases a with
  | put key value =>
    obtain rfl := Option.some.inj hstep
    exact ⟨_, rfl, rfl, rfl, rfl⟩
  | get key =>
    obtain rfl := Option.some.inj hstep
    exact ⟨_, rfl, rfl, rfl, rfl⟩
  | transfer fromKey toKey amount =>
    simp only [step] at hstep ⊢
    split_ifs at hstep ⊢ with hshard
    · obtain rfl := Option.some.inj hstep
      exact ⟨_, rfl, rfl, rfl, rfl⟩
    · obtain rfl := Option.some.inj hstep
      refine ⟨_, rfl, ?_, ?_, rfl⟩
      · simp [begin, frontend, Frontend.clear, Frontend.network, Call.clear, nextTx]
      · simp [begin, frontend, Frontend.clear, Frontend.network, nextTx]
  | tick i =>
    simp only [step, retries_clear] at hstep ⊢
    cases hr : net.retries[i]? with
    | none => simp [hr] at hstep
    | some r =>
      simp only [hr, Option.map_some] at hstep ⊢
      obtain ⟨call, side, stage, turn, incarnation⟩ := r
      cases stage with
      | calling answer => simp [Retry.clear, RetryStage.clear] at hstep
      | done => simp [Retry.clear, RetryStage.clear] at hstep
      | pausing =>
        simp only [Retry.clear, RetryStage.clear, calls_clear] at hstep ⊢
        cases hc : net.calls[call]? with
        | none => simp [hc] at hstep
        | some c =>
          simp only [hc, Option.map_some] at hstep ⊢
          obtain ⟨hincarnation, hstep⟩ := Option.ite_none_right_eq_some.mp hstep
          obtain rfl := Option.some.inj hstep
          refine ⟨_, if_pos hincarnation, ?_, rfl, rfl⟩
          simp only [tick, send, setRetry, frontend, Frontend.clear, Frontend.network,
            List.map_set]
          rfl
  | stopRetry i =>
    simp only [step, retries_clear] at hstep ⊢
    cases hr : net.retries[i]? with
    | none => simp [hr] at hstep
    | some r =>
      simp only [hr, Option.map_some] at hstep ⊢
      obtain ⟨hstop, hstep⟩ := Option.ite_none_right_eq_some.mp hstep
      obtain rfl := Option.some.inj hstep
      have hpausing : r.stage = .pausing ∧ net.closed := by
        obtain ⟨hstage, hclosed⟩ := hstop
        refine ⟨?_, hclosed⟩
        cases hst : r.stage with
        | pausing => rfl
        | calling | done => simp [Retry.clear, hst, RetryStage.clear] at hstage
      exact ⟨_, if_pos hpausing, follows_setRetry rfl⟩
  | close =>
    obtain rfl := Option.some.inj hstep
    exact ⟨_, rfl, rfl, (List.append_nil _).symm, rfl⟩
  | restart =>
    obtain rfl := Option.some.inj hstep
    exact ⟨_, rfl, rfl, (List.append_nil _).symm, rfl⟩
  | execute | lose | answer | fail | answerRetry | failRetry => cases ha

/-- The answer that is sent to the address has come, unless nobody waits for it. -/
def HasAnswer (net : Network n) (err : Option String) : Address → Prop
  | .call j turn => ∀ c, net.calls[j]? = some c → c.turn = turn → c.answer = some err
  | .retry i turn => ∀ r answer, net.retries[i]? = some r → r.turn = turn →
      r.stage = .calling answer → answer = some err

/-- The actions of the gateway that end a request. -/
def Action.ends : Action → Bool
  | .answer _ | .fail _ _ | .answerRetry _ | .failRetry _ => true
  | _ => false

theorem Action.begins_of_ends (h : a.ends = true) : a.begins = false := by
  cases a with
  | answer | fail | answerRetry | failRetry => rfl
  | put | get | transfer | execute | lose | tick | stopRetry | close | restart => cases h

/-- A call that goes on with the answer it is given now was waiting for it. -/
theorem enter_of_receive {j turn : ℕ} {err : Option String}
    (h : (net.frontend.clear.receive j turn err).step shardFor (.answer j) = some (f, fs)) :
    ∃ c, net.calls[j]? = some c ∧ c.turn = turn ∧ c.stage.request ≠ none ∧
      c.incarnation = net.incarnation ∧
      net.Follows (net.enter j c (c.stage.next c.transfer err)) f fs := by
  obtain ⟨net₁, hstep, heq⟩ := Option.map_eq_some_iff.mp h
  obtain ⟨rfl, rfl⟩ := Prod.mk.inj heq
  have hget : (net.frontend.clear.receive j turn err).network.calls[j]? =
      net.calls[j]?.map fun c => receive turn err c.clear := by
    simp only [Frontend.network, Frontend.receive, Frontend.clear, frontend,
      List.getElem?_modify_eq, List.getElem?_map, Option.map_eq_map, Option.map_map]
    rfl
  simp only [step, hget] at hstep
  cases hc : net.calls[j]? with
  | none => simp [hc] at hstep
  | some c =>
    simp only [hc, Option.map_some] at hstep
    by_cases hturn : c.turn = turn
    · have hreceive : receive turn err c.clear = { c with answer := some err } := by
        simp [receive, Call.clear, hturn]
      rw [hreceive] at hstep
      dsimp only at hstep
      cases hreq : c.stage.request with
      | none => simp [hreq] at hstep
      | some q =>
        simp only [hreq] at hstep
        obtain ⟨hincarnation, hstep⟩ := Option.ite_none_right_eq_some.mp hstep
        obtain rfl := Option.some.inj hstep
        refine ⟨c, rfl, hturn, by simp [hreq], hincarnation, ?_, rfl, rfl⟩
        have hnew : ((if net.closed = true then []
            else (c.stage.next c.transfer err).undelivered.map fun side =>
              ⟨j, side, .pausing, 0, net.incarnation⟩) : List Retry).map Retry.clear =
            if net.closed = true then []
            else (c.stage.next c.transfer err).undelivered.map fun side =>
              ⟨j, side, .pausing, 0, net.incarnation⟩ := by
          split_ifs
          · rfl
          · rw [List.map_map]
            rfl
        simp only [enter, frontend, Frontend.clear, Frontend.network, Frontend.receive,
          Table.set_modify, List.map_append, List.map_set, hnew]
        rfl
    · have hreceive : receive turn err c.clear = c.clear := by
        simp [receive, Call.clear, hturn]
      rw [hreceive] at hstep
      simp [Call.clear] at hstep

/-- A retry that goes on with the answer it is given now was waiting for it. -/
theorem setRetry_of_receive {i turn : ℕ} {err : Option String}
    (h : (net.frontend.clear.receiveRetry i turn err).step shardFor (.answerRetry i) =
      some (f, fs)) :
    ∃ r answer, net.retries[i]? = some r ∧ r.turn = turn ∧ r.stage = .calling answer ∧
      net.Follows (net.setRetry i { r with stage := err.elim .done fun _ => .pausing }) f fs := by
  obtain ⟨net₁, hstep, heq⟩ := Option.map_eq_some_iff.mp h
  obtain ⟨rfl, rfl⟩ := Prod.mk.inj heq
  have hget : (net.frontend.clear.receiveRetry i turn err).network.retries[i]? =
      net.retries[i]?.map fun r => receiveRetry turn err r.clear := by
    simp only [Frontend.network, Frontend.receiveRetry, Frontend.clear, frontend,
      List.getElem?_modify_eq, List.getElem?_map, Option.map_eq_map, Option.map_map]
    rfl
  simp only [step, hget] at hstep
  cases hr : net.retries[i]? with
  | none => simp [hr] at hstep
  | some r =>
    simp only [hr, Option.map_some] at hstep
    obtain ⟨call, side, stage, turn', incarnation⟩ := r
    cases stage with
    | pausing => simp [Retry.clear, RetryStage.clear, receiveRetry] at hstep
    | done => simp [Retry.clear, RetryStage.clear, receiveRetry] at hstep
    | calling answer =>
      by_cases hturn : turn' = turn
      · subst hturn
        refine ⟨_, answer, rfl, rfl, rfl, ?_⟩
        have hfollows : ∀ d : Retry, d.clear = d →
            net.Follows (net.setRetry i d)
              ((net.frontend.clear.receiveRetry i turn' err).network.setRetry i d).frontend [] := by
          intro d hd
          refine ⟨?_, (List.append_nil _).symm, rfl⟩
          simp only [setRetry, frontend, Frontend.clear, Frontend.network, Frontend.receiveRetry,
            List.map_set, hd, Table.set_modify]
        cases err with
        | none =>
          simp only [Retry.clear, RetryStage.clear, receiveRetry, if_true,
            Option.some.injEq] at hstep
          subst hstep
          exact hfollows ⟨call, side, .done, turn', incarnation⟩ rfl
        | some text =>
          simp only [Retry.clear, RetryStage.clear, receiveRetry, if_true,
            Option.some.injEq] at hstep
          subst hstep
          exact hfollows ⟨call, side, .pausing, turn', incarnation⟩ rfl
      · simp [Retry.clear, RetryStage.clear, receiveRetry, hturn] at hstep

/-- **When a request ends in a cluster, it ends in the network**, with the answer that has come, or
with an error. -/
theorem resume_of_frontend {request : Flight n} {err : Option String}
    (h : net.frontend.clear.resume shardFor request err = some (f, fs))
    (hend : (∀ a, request.address = some a → net.HasAnswer err a) ∨ err ≠ none) :
    ∃ net', (net' = net ∨ ∃ a, a.ends = true ∧ net.step shardFor a = some net') ∧
      net.Follows net' f fs := by
  unfold Frontend.resume at h
  split at h
  · rename_i j turn hcall hreply
    obtain ⟨c, hc, hturn, hreq, hincarnation, hfollows⟩ := enter_of_receive h
    rcases hend with hanswer | herr
    · have hanswer := hanswer (.call j turn) (by simp [Flight.address, hcall, hreply]) c hc hturn
      refine ⟨_, Or.inr ⟨.answer j, rfl, ?_⟩, hfollows⟩
      obtain ⟨q, hq⟩ := Option.ne_none_iff_exists'.mp hreq
      simp only [step, hc, hq, hanswer, if_pos hincarnation]
    · obtain ⟨text, rfl⟩ := Option.ne_none_iff_exists'.mp herr
      refine ⟨_, Or.inr ⟨.fail j text, rfl, ?_⟩, hfollows⟩
      simp only [step, hc]
      exact if_pos ⟨hreq, hincarnation⟩
  · rename_i i turn hreply
    obtain ⟨r, answer, hr, hturn, hstage, hfollows⟩ := setRetry_of_receive h
    rcases hend with hanswer | herr
    · have haddress : request.address = some (.retry i turn) := by simp [Flight.address, hreply]
      obtain rfl := hanswer _ haddress r answer hr hturn hstage
      refine ⟨_, Or.inr ⟨.answerRetry i, rfl, ?_⟩, hfollows⟩
      simp only [step, hr, hstage]
      cases err <;> rfl
    · obtain ⟨text, rfl⟩ := Option.ne_none_iff_exists'.mp herr
      refine ⟨_, Or.inr ⟨.failRetry i, rfl, ?_⟩, hfollows⟩
      simp only [step, hr, hstage]
      rfl
  · obtain ⟨rfl, rfl⟩ := Prod.mk.inj (Option.some.inj h)
    exact ⟨net, Or.inl rfl, rfl, (List.append_nil _).symm, rfl⟩

end Network

/-! ## Different return addresses -/

namespace Frontend

/-- How many requests have been made for this address so far. -/
def turnAt (f : Frontend n) : Address → Option ℕ
  | .call j _ => (f.calls.map Call.turn)[j]?
  | .retry i _ => (f.retries.map Retry.turn)[i]?

/-- The request was made some time ago. -/
def Knows (f : Frontend n) (q : Flight n) : Prop :=
  ∀ a, q.address = some a → ∃ t, f.turnAt a = some t ∧ a.turn ≤ t

/-- The request has not been made. -/
def IsNew (f : Frontend n) (q : Flight n) : Prop :=
  ∀ a, q.address = some a → ∀ t, f.turnAt a = some t → t < a.turn

/-- A step of the gateway makes new requests, at most one. -/
structure Emits (f f' : Frontend n) (fs : List (Flight n)) : Prop where
  turns : ∀ a t, f.turnAt a = some t → ∃ t', f'.turnAt a = some t' ∧ t ≤ t'
  requests : fs = [] ∨ ∃ q, fs = [q] ∧ f'.Knows q ∧ f.IsNew q

variable {f f' : Frontend n} {fs sent : List (Flight n)} {q q' : Flight n} {a : Network.Action}

theorem Knows.mono (h : f.Knows q) (he : f.Emits f' fs) : f'.Knows q := by
  intro a ha
  obtain ⟨t, ht, hle⟩ := h a ha
  obtain ⟨t', ht', htt'⟩ := he.turns a t ht
  exact ⟨t', ht', hle.trans htt'⟩

theorem IsNew.address_ne (h' : f.IsNew q') (h : f.Knows q) {d : Address} (hd : q.address = some d) :
    q'.address ≠ some d := by
  intro hd'
  obtain ⟨t, ht, hle⟩ := h d hd
  exact absurd (h' d hd' t ht) hle.not_gt

/-- Requests that have been made, with different return addresses. -/
structure Addresses (f : Frontend n) (sent : List (Flight n)) : Prop where
  known : ∀ q ∈ sent, f.Knows q
  unique : ∀ (i i' : ℕ) q q' d, sent[i]? = some q → sent[i']? = some q' → q.address = some d →
    q'.address = some d → i = i'

theorem Addresses.emit (h : f.Addresses sent) (he : f.Emits f' fs) :
    f'.Addresses (sent ++ fs) := by
  have hold : ∀ q ∈ sent, f'.Knows q := fun q hq => (h.known q hq).mono he
  rcases he.requests with rfl | ⟨q₀, rfl, hknown, hnew⟩
  · rw [List.append_nil]
    exact ⟨hold, h.unique⟩
  · refine ⟨fun q hq => ?_, fun i i' q q' d hq hq' hd hd' => ?_⟩
    · rcases List.mem_append.mp hq with hq | hq
      · exact hold q hq
      · rw [List.mem_singleton.mp hq]
        exact hknown
    · have hother : ∀ q : Flight n, ∀ i : ℕ, sent[i]? = some q → q.address = some d →
          q₀.address ≠ some d := fun q i hq hd =>
        hnew.address_ne (h.known q (List.mem_of_getElem? hq)) hd
      rcases Table.getElem?_concat_eq_some.mp hq with hold | ⟨rfl, rfl⟩ <;>
        rcases Table.getElem?_concat_eq_some.mp hq' with hold' | ⟨rfl, rfl⟩
      · exact h.unique i i' q q' d hold hold' hd hd'
      · exact absurd hd' (hother q i hold hd)
      · exact absurd hd (hother q' i' hold' hd')
      · rfl

/-- Retry `i`, so far `r`, goes on as `r'`. -/
theorem turnAt_setRetry {i : ℕ} {r r' : Retry} (hr : f.network.retries[i]? = some r)
    (hle : r.turn ≤ r'.turn) (d : Address) (t : ℕ) (ht : f.turnAt d = some t) :
    ∃ t', (f.network.setRetry i r').frontend.turnAt d = some t' ∧ t ≤ t' := by
  cases d with
  | call j turn => exact ⟨t, ht, le_rfl⟩
  | retry k turn =>
    have hget := Table.getElem?_map_set hr r' Retry.turn k
    by_cases hk : k = i
    · rw [if_pos hk] at hget
      refine ⟨r'.turn, hget, ?_⟩
      have hold : f.turnAt (.retry k turn) = some r.turn := by
        rw [hk]
        exact (List.getElem?_map ..).trans (congrArg _ hr)
      obtain rfl := Option.some.inj (ht.symm.trans hold)
      exact hle
    · rw [if_neg hk] at hget
      exact ⟨t, hget.trans ht, le_rfl⟩

/-- **A request of a call or a retry has a number of its own.** -/
theorem emits_of_step (h : f.step shardFor a = some (f', fs)) : f.Emits f' fs := by
  obtain ⟨net, hstep, heq⟩ := Option.map_eq_some_iff.mp h
  obtain ⟨rfl, rfl⟩ := Prod.mk.inj heq
  have hsame : ∀ d t, f.turnAt d = some t → ∃ t', f.turnAt d = some t' ∧ t ≤ t' :=
    fun d t ht => ⟨t, ht, le_rfl⟩
  have ht := Network.Transition.of_step hstep
  generalize hnet : f.network = net₀ at ht
  cases ht with
  | client q hcall hreply =>
    subst hnet
    refine ⟨hsame, Or.inr ⟨q, rfl, fun d hd => ?_, fun d hd => ?_⟩⟩ <;>
      simp [Flight.address, hcall, hreply] at hd
  | begin hne =>
    subst hnet
    refine ⟨fun d t ht => ?_, Or.inr ⟨_, rfl, fun d hd => ?_, fun d hd t ht => ?_⟩⟩
    · cases d with
      | call j turn =>
        refine ⟨t, ?_, le_rfl⟩
        simp only [turnAt, Network.frontend, Network.begin, network, List.map_append]
        rw [List.getElem?_append_left (List.getElem?_eq_some_iff.mp ht).1]
        exact ht
      | retry i turn => exact ⟨t, ht, le_rfl⟩
    · obtain rfl := Option.some.inj hd
      refine ⟨0, ?_, le_rfl⟩
      simp [turnAt, Network.frontend, Network.begin]
    · obtain rfl := Option.some.inj hd
      simp [turnAt, network] at ht
  | execute q hq =>
    subst hnet
    simp [Frontend.network] at hq
  | lose q hq =>
    subst hnet
    simp [Frontend.network] at hq
  | @enter _ j c err hc =>
    subst hnet
    have hcall : ∀ k, ((f.network.enter j c (c.stage.next c.transfer err)).calls.map
        Call.turn)[k]? = if k = j then some (c.turn + 1) else (f.calls.map Call.turn)[k]? :=
      Table.getElem?_map_set hc _ Call.turn
    have hold : (f.calls.map Call.turn)[j]? = some c.turn :=
      (List.getElem?_map ..).trans (congrArg _ hc)
    refine ⟨fun d t ht => ?_, ?_⟩
    · cases d with
      | call k turn =>
        by_cases hk : k = j
        · subst hk
          refine ⟨c.turn + 1, (hcall k).trans (if_pos rfl), ?_⟩
          obtain rfl := Option.some.inj (ht.symm.trans hold)
          exact Nat.le_succ _
        · exact ⟨t, ((hcall k).trans (if_neg hk)).trans ht, le_rfl⟩
      | retry i turn =>
        refine ⟨t, ?_, le_rfl⟩
        simp only [turnAt, Network.frontend, Network.enter, network, List.map_append]
        rw [List.getElem?_append_left (List.getElem?_eq_some_iff.mp ht).1]
        exact ht
    · simp only [Network.enter, network, List.nil_append, Network.requestOf]
      cases hreq : (c.stage.next c.transfer err).request with
      | none => exact Or.inl rfl
      | some q =>
        refine Or.inr ⟨_, rfl, fun d hd => ?_, fun d hd t ht => ?_⟩
        · obtain rfl := Option.some.inj hd
          exact ⟨c.turn + 1, (hcall j).trans (if_pos rfl), le_rfl⟩
        · obtain rfl := Option.some.inj hd
          obtain rfl := Option.some.inj (ht.symm.trans hold)
          exact Nat.lt_succ_self _
  | @tick i r c hr hc =>
    subst hnet
    refine ⟨turnAt_setRetry hr (Nat.le_succ r.turn),
      Or.inr ⟨_, rfl, fun d hd => ?_, fun d hd t ht => ?_⟩⟩
    · obtain rfl := Option.some.inj hd
      exact ⟨r.turn + 1, (Table.getElem?_map_set hr _ Retry.turn i).trans (if_pos rfl), le_rfl⟩
    · obtain rfl := Option.some.inj hd
      have hold : f.turnAt (.retry i (r.turn + 1)) = some r.turn :=
        (List.getElem?_map ..).trans (congrArg _ hr)
      obtain rfl := Option.some.inj (ht.symm.trans hold)
      exact Nat.lt_succ_self _
  | pause r hr =>
    subst hnet
    exact ⟨turnAt_setRetry hr le_rfl, Or.inl rfl⟩
  | finish r hr =>
    subst hnet
    exact ⟨turnAt_setRetry hr le_rfl, Or.inl rfl⟩
  | close =>
    subst hnet
    exact ⟨hsame, Or.inl rfl⟩
  | restart =>
    subst hnet
    exact ⟨hsame, Or.inl rfl⟩

theorem Emits.of_turnAt {g : Frontend n} (he : g.Emits f' fs)
    (hsame : ∀ d, g.turnAt d = f.turnAt d) : f.Emits f' fs := by
  refine ⟨fun d t ht => he.turns d t ((hsame d).trans ht), he.requests.imp_right ?_⟩
  rintro ⟨q, hq, hknown, hnew⟩
  exact ⟨q, hq, hknown, fun d hd t ht => hnew d hd t ((hsame d).trans ht)⟩

theorem emits_of_resume {request : Flight n} {err : Option String}
    (h : f.resume shardFor request err = some (f', fs)) : f.Emits f' fs := by
  unfold resume at h
  split at h
  · rename_i j turn _ _
    have he := emits_of_step h
    have hsame : ∀ d, (f.receive j turn err).turnAt d = f.turnAt d := by
      intro d
      cases d with
      | call k t =>
        exact congrArg (·[k]?) (Table.map_modify_eq (Network.turn_receive turn err) j f.calls)
      | retry k t => rfl
    exact he.of_turnAt hsame
  · rename_i i turn _
    have he := emits_of_step h
    have hsame : ∀ d, (f.receiveRetry i turn err).turnAt d = f.turnAt d := by
      intro d
      cases d with
      | call k t => rfl
      | retry k t =>
        exact congrArg (·[k]?)
          (Table.map_modify_eq (Network.turn_receiveRetry turn err) i f.retries)
    exact he.of_turnAt hsame
  · obtain ⟨rfl, rfl⟩ := Prod.mk.inj (Option.some.inj h)
    exact ⟨fun d t ht => ⟨t, ht, le_rfl⟩, Or.inl rfl⟩

theorem turnAt_clear (f : Frontend n) (d : Address) : f.clear.turnAt d = f.turnAt d := by
  cases d with
  | call j turn =>
    refine congrArg (·[j]?) ((List.map_map ..).trans (List.map_congr_left fun c _ => ?_))
    rfl
  | retry i turn =>
    refine congrArg (·[i]?) ((List.map_map ..).trans (List.map_congr_left fun r _ => ?_))
    rfl

end Frontend

/-- **An answer stays until it is read**: whatever the gateway does, for a request that was made
before. -/
theorem Network.HasAnswer.kept {net net' : Network n} {a : Network.Action} {err : Option String}
    {d : Address} (h : net.HasAnswer err d) (hs : net.step shardFor a = some net')
    (ha : ∀ i, a ≠ .execute i) (hknown : ∃ t, net.frontend.turnAt d = some t ∧ d.turn ≤ t) :
    net'.HasAnswer err d := by
  obtain ⟨t, ht, hle⟩ := hknown
  -- an entry that has been replaced has a higher number, or waits for nothing
  have hset : ∀ {i : ℕ} {r r' : Retry}, net.retries[i]? = some r →
      (r.turn < r'.turn ∨ ∀ answer, r'.stage ≠ .calling answer) →
      (net.setRetry i r').HasAnswer err d := by
    intro i r r' hr hnew
    cases d with
    | call j turn => exact h
    | retry k turn =>
      intro r'' answer hr'' hturn hstage
      simp only [Network.setRetry, List.getElem?_set] at hr''
      split_ifs at hr'' with hik hlt
      · obtain rfl := Option.some.inj hr''
        rcases hnew with hnew | hnew
        · have hold : net.frontend.turnAt (.retry k turn) = some r.turn := by
            rw [← hik]
            exact (List.getElem?_map ..).trans (congrArg _ hr)
          obtain rfl := Option.some.inj (ht.symm.trans hold)
          exact absurd hle (by rw [← hturn]; exact hnew.not_ge)
        · exact absurd hstage (hnew answer)
      · exact h r'' answer hr'' hturn hstage
  cases Network.Transition.of_step hs with
  | client | lose | close | restart => exact h
  | execute => exact absurd rfl (ha _)
  | begin hne =>
    cases d with
    | retry i turn => exact h
    | call j turn =>
      intro c hc hturn
      rw [Network.getElem?_begin] at hc
      have hj : j < net.calls.length :=
        (List.length_map ..).symm ▸ (List.getElem?_eq_some_iff.mp ht).1
      rw [if_neg (Nat.ne_of_lt hj)] at hc
      exact h c hc hturn
  | @enter _ j c₀ err₀ hc₀ =>
    cases d with
    | call k turn =>
      intro c hc hturn
      rw [Network.getElem?_enter hc₀] at hc
      split_ifs at hc with hk
      · obtain rfl := Option.some.inj hc
        have hold : net.frontend.turnAt (.call k turn) = some c₀.turn := by
          rw [hk]
          exact (List.getElem?_map ..).trans (congrArg _ hc₀)
        obtain rfl := Option.some.inj (ht.symm.trans hold)
        exact absurd hle (by rw [← hturn]; exact (Nat.lt_succ_self _).not_ge)
      · exact h c hc hturn
    | retry i turn =>
      intro r answer hr hturn hstage
      have hi : i < net.retries.length :=
        (List.length_map ..).symm ▸ (List.getElem?_eq_some_iff.mp ht).1
      exact h r answer ((List.getElem?_append_left hi).symm.trans hr) hturn hstage
  | tick r c hr hc => exact hset hr (Or.inl (Nat.lt_succ_self _))
  | pause r hr => exact hset hr (Or.inr (by simp))
  | finish r hr => exact hset hr (Or.inr (by simp))

namespace Network

variable {net : Network n} {q : Flight n} {err : Option String} {d : Address}

theorem clear_execute (net : Network n) (q : Flight n) :
    (net.execute q).frontend.clear = net.frontend.clear := by
  simp only [frontend, execute, Frontend.clear, Frontend.mk.injEq, true_and]
  constructor
  · split
    · exact Table.map_modify_eq (Call.clear_receive _ _) _ net.calls
    · rfl
  · split
    · exact Table.map_modify_eq (Retry.clear_receive _ _) _ net.retries
    · rfl

/-- **A request that is executed has its answer.** -/
theorem hasAnswer_execute (h : q.address = some d) :
    (net.execute q).HasAnswer ((net.shards q.shard).applyLocked q.command).2.err d := by
  unfold Flight.address at h
  split at h
  · rename_i j turn hcall hreply
    obtain rfl := Option.some.inj h
    intro c hc hturn
    simp only [execute, hcall, hreply, List.getElem?_modify_eq, Option.map_eq_map] at hc
    obtain ⟨c₀, -, rfl⟩ := Option.map_eq_some_iff.mp hc
    unfold receive at hturn ⊢
    split_ifs at hturn ⊢ with hsame
    · rfl
    · exact absurd hturn hsame
  · rename_i i turn hreply
    obtain rfl := Option.some.inj h
    intro r answer hr hturn hstage
    simp only [execute, hreply, List.getElem?_modify_eq, Option.map_eq_map] at hr
    obtain ⟨r₀, -, rfl⟩ := Option.map_eq_some_iff.mp hr
    unfold receiveRetry at hturn hstage
    split at hstage
    · rename_i hcalling
      simp only [hcalling] at hturn
      split_ifs at hturn hstage with hsame
      · exact (RetryStage.calling.inj hstage).symm
      · exact absurd hturn hsame
    · rename_i hpausing
      cases hpausing.symm.trans hstage
    · rename_i hdone
      cases hdone.symm.trans hstage
  · cases h

/-- The answers of the others stay. -/
theorem HasAnswer.execute (h : net.HasAnswer err d) (hne : q.address ≠ some d) :
    (net.execute q).HasAnswer err d := by
  cases d with
  | call k turn =>
    intro c hc hturn
    simp only [Network.execute] at hc
    split at hc
    · rename_i j turn' hcall hreply
      rw [List.getElem?_modify] at hc
      obtain ⟨c₀, hc₀, hc⟩ := Option.map_eq_some_iff.mp hc
      by_cases hj : j = k
      · subst hj
        rw [if_pos rfl] at hc
        have hsame : c.turn = c₀.turn := hc ▸ turn_receive ..
        have hother : c₀.turn ≠ turn' := by
          rintro rfl
          exact hne (by simp [Flight.address, hcall, hreply, ← hturn, hsame])
        rw [receive, if_neg hother] at hc
        exact h c (hc ▸ hc₀) hturn
      · rw [if_neg hj] at hc
        exact h c (hc ▸ hc₀) hturn
    · exact h c hc hturn
  | retry k turn =>
    intro r answer hr hturn hstage
    simp only [Network.execute] at hr
    split at hr
    · rename_i i turn' hreply
      rw [List.getElem?_modify] at hr
      obtain ⟨r₀, hr₀, hr⟩ := Option.map_eq_some_iff.mp hr
      by_cases hi : i = k
      · subst hi
        rw [if_pos rfl] at hr
        have hsame : r.turn = r₀.turn := hr ▸ turn_receiveRetry ..
        have hother : r₀.turn ≠ turn' := by
          rintro rfl
          exact hne (by simp [Flight.address, hreply, ← hturn, hsame])
        have hkept : receiveRetry turn' ((net.shards q.shard).applyLocked q.command).2.err r₀ =
            r₀ := by
          unfold receiveRetry
          split
          · exact if_neg hother
          · rfl
          · rfl
        rw [hkept] at hr
        exact h r answer (hr ▸ hr₀) hturn hstage
      · rw [if_neg hi] at hr
        exact h r answer (hr ▸ hr₀) hturn hstage
    · exact h r answer hr hturn hstage

end Network

end PaxosPayments.ControlPlane
