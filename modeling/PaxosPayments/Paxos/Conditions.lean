import PaxosPayments.Paxos.Group

/-!
# Side conditions on the steps of a group

The code of `node.go` leaves some interleavings unguarded. The conditions below each exclude one of
them; each is a decidable condition on an action and on the state in which it is taken. The theorems
about whole runs say which of them they need.
-/

namespace PaxosPayments.Paxos.ReplicaGroup

/-- A campaign promises its ballot while the ballot is still above the replica's promise: the
promise that was read to choose the ballot is not outdated. -/
def freshBallot (g : ReplicaGroup) : Action → Bool
  | .prepare cid _ =>
    match g.candidacies cid with
    | some c => (g.nodes c.owner).log.promised.less c.next
    | none => true
  | _ => true

/-- A campaign promises its ballot only while the replica does not lead. -/
def notLeading (g : ReplicaGroup) : Action → Bool
  | .prepare cid _ =>
    match g.candidacies cid with
    | some c => (g.nodes c.owner).role ≠ .leader
    | none => true
  | _ => true

/-- A lost campaign that adopts a ballot from a refusal does not go back behind the promise the
replica has made meanwhile. -/
def adoptionKept (cfg : Config) (g : ReplicaGroup) : Action → Bool
  | .conclude rid _ _ =>
    match g.pending rid with
    | some ⟨id, .prepare next _, _, replies, _⟩ =>
      decide (cfg.quorum ≤ votes replies) || !next.less (highest next replies) ||
        !(highest next replies).less (g.nodes id).log.promised
    | _ => true
  | _ => true

/-- A campaign is won while its ballot is still the replica's promise. -/
def stillPromised (cfg : Config) (g : ReplicaGroup) : Action → Bool
  | .conclude rid _ _ =>
    match g.pending rid with
    | some ⟨id, .prepare next _, _, replies, _⟩ =>
      decide (votes replies < cfg.quorum) || decide ((g.nodes id).log.promised = next)
    | _ => true
  | _ => true

/-- A leader that raises its promise for an ACCEPT also stores the entry: the second of the two
writes does not fail. (When it fails, the replica goes on leading under a ballot below its promise.)
-/
def acceptStored (g : ReplicaGroup) : Action → Bool
  | .deliver rid p disk =>
    match g.rounds rid with
    | some ⟨_, .accept _ _, _, _, _⟩ => (g.nodes p).role ≠ .leader || disk ≠ 1
    | _ => true
  | _ => true

/-- `replicate` starts under the ballot under which its slot and command were fixed. -/
def sameLeadership (g : ReplicaGroup) : Action → Bool
  | .replicate jid _ =>
    match g.jobs jid with
    | some j => (g.nodes j.owner).role ≠ .leader || (g.nodes j.owner).ballot = j.under
    | none => true
  | _ => true

/-- The ballot under which `replicate` votes is not below the replica's promise. -/
def ownVoteKept (g : ReplicaGroup) : Action → Bool
  | .replicate jid _ =>
    match g.jobs jid with
    | some j => (g.nodes j.owner).role ≠ .leader ||
        !(g.nodes j.owner).ballot.less (g.nodes j.owner).log.promised
    | none => true
  | _ => true

/-- A vote in ballot `b` does not replace the entry of a slot marked committed by one of a lower
ballot. -/
def keepsCommitted (n : Node) (slot : ℕ) (b : Ballot) : Bool :=
  match n.log.entries slot with
  | some e => !n.committed slot || !b.less e.ballot
  | none => true

/-- No vote, of the leader or in `handleAccept`, replaces a committed entry by one of a lower
ballot. -/
def committedKept (g : ReplicaGroup) : Action → Bool
  | .replicate jid _ =>
    match g.jobs jid with
    | some j => keepsCommitted (g.nodes j.owner) j.slot (g.nodes j.owner).ballot
    | none => true
  | .deliver rid p _ =>
    match g.rounds rid with
    | some ⟨_, .accept entry _, _, _, _⟩ =>
      entry.ballot.less (g.nodes p).log.promised ||
        keepsCommitted (g.nodes p) entry.slot entry.ballot
    | _ => true
  | _ => true

/-- The slot counter does not wrap around when a slot is handed out, or at an election. -/
def noWrap (g : ReplicaGroup) : Action → Bool
  | .propose id _ => decide ((g.nodes id).nextSlot + 1 < 2 ^ 64)
  | .conclude rid _ _ =>
    match g.pending rid with
    | some ⟨id, .prepare _ first, _, replies, _⟩ =>
      decide ((Node.gather first (gathered (g.nodes id) first replies)).2 + 1 < 2 ^ 64)
    | _ => true
  | _ => true

/-! ## What the conditions say -/

section Spec

variable {cfg : Config} {g : ReplicaGroup} {rid jid cid disk first : ℕ} {expired : Bool} {r : Round}
  {next : Ballot}

theorem lt_of_freshBallot {c : Candidacy} (h : g.freshBallot (.prepare cid disk) = true)
    (hc : g.candidacies cid = some c) : (g.nodes c.owner).log.promised < c.next := by
  simpa [freshBallot, hc] using h

theorem not_leader_of_notLeading {c : Candidacy} (h : g.notLeading (.prepare cid disk) = true)
    (hc : g.candidacies cid = some c) : (g.nodes c.owner).role ≠ .leader := by
  simpa [notLeading, hc] using h

theorem le_of_adoptionKept (h : g.adoptionKept cfg (.conclude rid expired disk) = true)
    (hr : g.pending rid = some r) (ht : r.task = .prepare next first)
    (hq : votes r.replies < cfg.quorum) (hlt : next < highest next r.replies) :
    (g.nodes r.owner).log.promised ≤ highest next r.replies := by
  obtain ⟨owner, task, rpc, replies, concluded⟩ := r
  subst ht
  simpa [adoptionKept, hr, hq.not_ge, hlt.not_ge] using h

theorem eq_of_stillPromised (h : g.stillPromised cfg (.conclude rid expired disk) = true)
    (hr : g.pending rid = some r) (ht : r.task = .prepare next first)
    (hq : cfg.quorum ≤ votes r.replies) : (g.nodes r.owner).log.promised = next := by
  obtain ⟨owner, task, rpc, replies, concluded⟩ := r
  subst ht
  simpa [stillPromised, hr, hq.not_gt] using h

theorem eq_under_of_sameLeadership {j : Job} (h : g.sameLeadership (.replicate jid disk) = true)
    (hj : g.jobs jid = some j) (hl : (g.nodes j.owner).role = .leader) :
    (g.nodes j.owner).ballot = j.under := by
  simpa [sameLeadership, hj, hl] using h

theorem le_of_ownVoteKept {j : Job} (h : g.ownVoteKept (.replicate jid disk) = true)
    (hj : g.jobs jid = some j) (hl : (g.nodes j.owner).role = .leader) :
    (g.nodes j.owner).log.promised ≤ (g.nodes j.owner).ballot := by
  simpa [ownVoteKept, hj, hl] using h

theorem le_of_keepsCommitted {n : Node} {slot : ℕ} {b : Ballot} {e : Entry}
    (h : keepsCommitted n slot b = true) (he : n.log.entries slot = some e)
    (hc : n.committed slot = true) : e.ballot ≤ b := by
  simpa [keepsCommitted, he, hc] using h

theorem keepsCommitted_replicate {j : Job} (h : g.committedKept (.replicate jid disk) = true)
    (hj : g.jobs jid = some j) :
    keepsCommitted (g.nodes j.owner) j.slot (g.nodes j.owner).ballot = true := by
  simpa [committedKept, hj] using h

theorem keepsCommitted_deliver {p : NodeID} {entry : Entry} {j : Job}
    (h : g.committedKept (.deliver rid p disk) = true) (hr : g.rounds rid = some r)
    (ht : r.task = .accept entry j) (hle : (g.nodes p).log.promised ≤ entry.ballot) :
    keepsCommitted (g.nodes p) entry.slot entry.ballot = true := by
  obtain ⟨owner, task, rpc, replies, concluded⟩ := r
  subst ht
  simpa [committedKept, hr, hle.not_gt] using h

theorem lt_of_noWrap (h : g.noWrap (.conclude rid expired disk) = true)
    (hr : g.pending rid = some r) (ht : r.task = .prepare next first) :
    (Node.gather first (gathered (g.nodes r.owner) first r.replies)).2 + 1 < 2 ^ 64 := by
  obtain ⟨owner, task, rpc, replies, concluded⟩ := r
  subst ht
  simpa [noWrap, hr] using h

end Spec

end PaxosPayments.Paxos.ReplicaGroup
