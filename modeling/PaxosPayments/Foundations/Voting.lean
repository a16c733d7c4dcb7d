import Mathlib.Data.Finset.Card
import Mathlib.Order.Basic

/-!
# Voting in ballots

The general part of the safety argument for Paxos, over arbitrary types of acceptors, instances,
ballots and values. An acceptor has a ballot below which it no longer votes (`bal`); votes and
proposals are recorded for good.

* `ChosenAt`: a quorum voted for a value in a ballot.
* `SafeBelow`: no other value has been or can ever be chosen in a lower ballot.
* `Sound`: every vote is for a proposal, a ballot has at most one proposal in an instance, and every
  proposal is safe. In a sound history two chosen values agree (`Sound.chosen_agree`).
* `Extends`: the ways in which a history may grow; `SafeBelow` and `ChosenAt` survive it.
* `Backed`: a value was chosen at or below a ballot. `Answers`: an entry that an acceptor keeps
  answers for a vote it has cast, because it is at least as high or because it is backed.
* `safeBelow_of_reports`: the value reported with the highest ballot by a quorum that has left the
  lower ballots is safe, when the reports answer for all votes of the quorum there.
* `OutOfReach`: a value that can no longer be chosen in a ballot.
-/

namespace PaxosPayments.Voting

/-- A family of sets, any two of which meet. -/
structure Quorums (A : Type*) where
  IsQuorum : Finset A → Prop
  meet : ∀ Q Q', IsQuorum Q → IsQuorum Q' → ∃ a, a ∈ Q ∧ a ∈ Q'

/-- The majorities of a finite group. -/
def majorities {A : Type*} [DecidableEq A] (group : Finset A) : Quorums A where
  IsQuorum Q := Q ⊆ group ∧ group.card < 2 * Q.card
  meet Q Q' h h' := by
    by_contra hne
    push Not at hne
    have hdisj : Disjoint Q Q' := Finset.disjoint_left.mpr hne
    have hcard := Finset.card_le_card (Finset.union_subset h.1 h'.1)
    rw [Finset.card_union_of_disjoint hdisj] at hcard
    have h₁ := h.2
    have h₂ := h'.2
    omega

/-- What the acceptors have done so far, in every instance. -/
structure History (A S B V : Type*) where
  /-- The ballot below which an acceptor no longer votes. -/
  bal : A → B
  voted : A → S → B → V → Prop
  proposed : S → B → V → Prop

variable {A S B V : Type*} [LinearOrder B] (qs : Quorums A) {σ τ υ : History A S B V}
  {a : A} {s : S} {b b' : B} {v v' : V}

/-- A quorum voted for `v` in ballot `b`. -/
def ChosenAt (σ : History A S B V) (s : S) (b : B) (v : V) : Prop :=
  ∃ Q, qs.IsQuorum Q ∧ ∀ a ∈ Q, σ.voted a s b v

/-- The acceptor has left ballot `b` without voting in it. -/
def Closed (σ : History A S B V) (a : A) (s : S) (b : B) : Prop :=
  b < σ.bal a ∧ ∀ v, ¬σ.voted a s b v

/-- In every ballot below `b` a quorum has voted for `v` or cannot vote any more, so no other value
can be chosen there. -/
def SafeBelow (σ : History A S B V) (s : S) (b : B) (v : V) : Prop :=
  ∀ b' < b, ∃ Q, qs.IsQuorum Q ∧ ∀ a ∈ Q, σ.voted a s b' v ∨ Closed σ a s b'

/-- The invariant of a history: votes are for proposals, which are unique and safe. -/
structure Sound (σ : History A S B V) : Prop where
  votes : ∀ {a s b v}, σ.voted a s b v → σ.proposed s b v
  unique : ∀ {s b v v'}, σ.proposed s b v → σ.proposed s b v' → v = v'
  safe : ∀ {s b v}, σ.proposed s b v → SafeBelow qs σ s b v

variable {qs}

omit [LinearOrder B] in
theorem ChosenAt.exists_vote (h : ChosenAt qs σ s b v) : ∃ a, σ.voted a s b v := by
  obtain ⟨Q, hQ, hv⟩ := h
  obtain ⟨a, ha, -⟩ := qs.meet Q Q hQ hQ
  exact ⟨a, hv a ha⟩

/-- A proposal at or above the ballot in which a value was chosen is that value. -/
theorem Sound.proposed_eq_chosen (h : Sound qs σ) (hc : ChosenAt qs σ s b v)
    (hp : σ.proposed s b' v') (hle : b ≤ b') : v' = v := by
  rcases hle.eq_or_lt with rfl | hlt
  · obtain ⟨a, ha⟩ := hc.exists_vote
    exact h.unique hp (h.votes ha)
  · obtain ⟨Q, hQ, hv⟩ := hc
    obtain ⟨Q', hQ', hs⟩ := h.safe hp b hlt
    obtain ⟨a, ha, ha'⟩ := qs.meet Q Q' hQ hQ'
    rcases hs a ha' with hvote | hclosed
    · exact h.unique (h.votes hvote) (h.votes (hv a ha))
    · exact absurd (hv a ha) (hclosed.2 v)

/-- **Agreement**: at most one value is chosen in an instance, over all ballots. -/
theorem Sound.chosen_agree (h : Sound qs σ) (hc : ChosenAt qs σ s b v)
    (hc' : ChosenAt qs σ s b' v') : v = v' := by
  obtain ⟨a, ha⟩ := hc.exists_vote
  obtain ⟨a', ha'⟩ := hc'.exists_vote
  rcases le_total b b' with hle | hle
  · exact (h.proposed_eq_chosen hc (h.votes ha') hle).symm
  · exact h.proposed_eq_chosen hc' (h.votes ha) hle

/-! ## How a history may grow -/

/-- `τ` extends `σ`: nothing is taken back, and the new votes are not below the ballot the voter
had reached. -/
structure Extends (σ τ : History A S B V) : Prop where
  bal : ∀ a, σ.bal a ≤ τ.bal a
  voted : ∀ {a s b v}, σ.voted a s b v → τ.voted a s b v
  proposed : ∀ {s b v}, σ.proposed s b v → τ.proposed s b v
  fresh : ∀ {a s b v}, τ.voted a s b v → σ.voted a s b v ∨ σ.bal a ≤ b

namespace Extends

theorem refl (σ : History A S B V) : Extends σ σ :=
  ⟨fun _ => le_rfl, id, id, Or.inl⟩

theorem trans (e : Extends σ τ) (e' : Extends τ υ) : Extends σ υ := by
  refine ⟨fun a => (e.bal a).trans (e'.bal a), fun h => e'.voted (e.voted h),
    fun h => e'.proposed (e.proposed h), fun {a s b v} h => ?_⟩
  rcases e'.fresh h with hτ | hge
  · exact e.fresh hτ
  · exact Or.inr ((e.bal a).trans hge)

theorem chosenAt (e : Extends σ τ) (h : ChosenAt qs σ s b v) : ChosenAt qs τ s b v := by
  obtain ⟨Q, hQ, hv⟩ := h
  exact ⟨Q, hQ, fun a ha => e.voted (hv a ha)⟩

theorem closed (e : Extends σ τ) (h : Closed σ a s b) : Closed τ a s b := by
  refine ⟨h.1.trans_le (e.bal a), fun v hv => ?_⟩
  rcases e.fresh hv with hold | hge
  · exact h.2 v hold
  · exact absurd (h.1.trans_le hge) (lt_irrefl b)

theorem safeBelow (e : Extends σ τ) (h : SafeBelow qs σ s b v) : SafeBelow qs τ s b v := by
  intro b' hb'
  obtain ⟨Q, hQ, hq⟩ := h b' hb'
  exact ⟨Q, hQ, fun a ha => (hq a ha).imp e.voted e.closed⟩

end Extends

/-- Soundness of an extension: only the new proposals have to be safe. -/
theorem Sound.extend (h : Sound qs σ) (e : Extends σ τ)
    (hvotes : ∀ {a s b v}, τ.voted a s b v → τ.proposed s b v)
    (hunique : ∀ {s b v v'}, τ.proposed s b v → τ.proposed s b v' → v = v')
    (hsafe : ∀ {s b v}, τ.proposed s b v → σ.proposed s b v ∨ SafeBelow qs σ s b v) :
    Sound qs τ where
  votes := hvotes
  unique := hunique
  safe hp := by
    rcases hsafe hp with hold | hnew
    · exact e.safeBelow (h.safe hold)
    · exact e.safeBelow hnew

/-! ## Values backed by a choice -/

/-- The value `v` was chosen at or below ballot `b`. -/
def Backed (qs : Quorums A) (σ : History A S B V) (s : S) (b : B) (v : V) : Prop :=
  ∃ c ≤ b, ChosenAt qs σ s c v

theorem Extends.backed (e : Extends σ τ) (h : Backed qs σ s b v) : Backed qs τ s b v := by
  obtain ⟨c, hc, hch⟩ := h
  exact ⟨c, hc, e.chosenAt hch⟩

theorem Sound.backed_agree (h : Sound qs σ) (hb : Backed qs σ s b v) (hb' : Backed qs σ s b' v') :
    v = v' := by
  obtain ⟨c, -, hc⟩ := hb
  obtain ⟨c', -, hc'⟩ := hb'
  exact h.chosen_agree hc hc'

/-- A proposal at or above a backed value is that value, and backed. -/
theorem Sound.backed_of_proposed (h : Sound qs σ) (hb : Backed qs σ s b v)
    (hp : σ.proposed s b' v') (hle : b ≤ b') : Backed qs σ s b' v' := by
  obtain ⟨c, hc, hch⟩ := hb
  rw [h.proposed_eq_chosen hch hp (hc.trans hle)]
  exact ⟨c, hc.trans hle, hch⟩

/-- The entry `(b, v)` answers for a vote `(b', v')`: the vote is not above it, or it was for the
value of the entry, which is backed. -/
def Answers (qs : Quorums A) (σ : History A S B V) (s : S) (b : B) (v : V) (b' : B) (v' : V) :
    Prop :=
  b' ≤ b ∨ v' = v ∧ Backed qs σ s b v

theorem Extends.answers (e : Extends σ τ) (h : Answers qs σ s b v b' v') :
    Answers qs τ s b v b' v' :=
  h.imp id fun ⟨hv, hb⟩ => ⟨hv, e.backed hb⟩

/-- A backed entry answers for a vote for any proposal. -/
theorem Sound.answers_of_backed (h : Sound qs σ) (hb : Backed qs σ s b v)
    (hp : σ.proposed s b' v') : Answers qs σ s b v b' v' := by
  rcases le_or_gt b' b with hle | hgt
  · exact Or.inl hle
  · obtain ⟨c, hc, hch⟩ := hb
    exact Or.inr ⟨h.proposed_eq_chosen hch hp (hc.trans hgt.le), c, hc, hch⟩

/-- A proposal that answers for a vote in a ballot in which its value was chosen is backed. -/
theorem Sound.backed_of_answers (h : Sound qs σ) (hch : ChosenAt qs σ s b' v')
    (hp : σ.proposed s b v) (hans : Answers qs σ s b v b' v') : Backed qs σ s b v := by
  rcases hans with hle | ⟨-, hb⟩
  · exact h.backed_of_proposed ⟨b', le_rfl, hch⟩ hp hle
  · exact hb

/-! ## Safe values from the reports of a quorum -/

/-- **The value reported with the highest ballot is safe**, when a quorum that has reached `b`
reports on all its votes below `b`. -/
theorem safeBelow_of_reports (h : Sound qs σ) {Q : Finset A} (hQ : qs.IsQuorum Q) {bm : B} {vm : V}
    (hbal : ∀ a ∈ Q, b ≤ σ.bal a) (hprop : σ.proposed s bm vm)
    (hrep : ∀ a ∈ Q, ∀ b' v', σ.voted a s b' v' → b' < b →
      ∃ br vr, br ≤ bm ∧ Answers qs σ s br vr b' v') :
    SafeBelow qs σ s b vm := by
  intro b' hb'
  rcases lt_or_ge b' bm with hlt | hge
  · exact h.safe hprop b' hlt
  refine ⟨Q, hQ, fun a ha => ?_⟩
  by_cases hv : ∃ v', σ.voted a s b' v'
  · obtain ⟨v', hv'⟩ := hv
    obtain ⟨br, vr, hbr, hans⟩ := hrep a ha b' v' hv' hb'
    left
    rcases hans with hle | ⟨rfl, c, hc, hch⟩
    · -- the vote is in the ballot of the report, which has one proposal only
      obtain rfl : b' = bm := le_antisymm (hle.trans hbr) hge
      rwa [← h.unique (h.votes hv') hprop]
    · rwa [h.proposed_eq_chosen hch hprop (hc.trans hbr)]
  · push Not at hv
    exact Or.inr ⟨hb'.trans_le (hbal a ha), hv⟩

/-- Any value is safe when a quorum that has reached `b` never voted below it. -/
theorem safeBelow_of_no_votes {Q : Finset A} (hQ : qs.IsQuorum Q) (hbal : ∀ a ∈ Q, b ≤ σ.bal a)
    (hnone : ∀ a ∈ Q, ∀ b' v', σ.voted a s b' v' → ¬b' < b) (v : V) : SafeBelow qs σ s b v :=
  fun b' hb' => ⟨Q, hQ, fun a ha =>
    Or.inr ⟨hb'.trans_le (hbal a ha), fun v' hv' => hnone a ha b' v' hv' hb'⟩⟩

/-! ## Values that are out of reach -/

/-- Where another value is safe below `b`, none is chosen below it. -/
theorem Sound.not_chosenAt_of_safeBelow (h : Sound qs σ) (hsafe : SafeBelow qs σ s b v')
    (hne : v' ≠ v) (hlt : b' < b) : ¬ChosenAt qs σ s b' v := by
  rintro ⟨Q, hQ, hv⟩
  obtain ⟨Q', hQ', hs⟩ := hsafe b' hlt
  obtain ⟨a, ha, ha'⟩ := qs.meet Q Q' hQ hQ'
  rcases hs a ha' with hvote | hclosed
  · exact hne (h.unique (h.votes hvote) (h.votes (hv a ha)))
  · exact hclosed.2 v (hv a ha)

/-- However the history goes on, the value is not chosen in this ballot. -/
def OutOfReach (qs : Quorums A) (σ : History A S B V) (s : S) (b : B) (v : V) : Prop :=
  ∀ τ, Extends σ τ → Sound qs τ → ¬ChosenAt qs τ s b v

theorem Extends.outOfReach (e : Extends σ τ) (h : OutOfReach qs σ s b v) :
    OutOfReach qs τ s b v :=
  fun υ e' hsound => h υ (e.trans e') hsound

namespace OutOfReach

/-- A quorum has left the ballot without a vote. -/
theorem of_closed {Q : Finset A} (hQ : qs.IsQuorum Q) (h : ∀ a ∈ Q, Closed σ a s b) :
    OutOfReach qs σ s b v := by
  rintro τ e - ⟨Q', hQ', hv⟩
  obtain ⟨a, ha, ha'⟩ := qs.meet Q Q' hQ hQ'
  exact (e.closed (h a ha)).2 v (hv a ha')

/-- Another value is safe above the ballot. -/
theorem of_safeBelow (h : SafeBelow qs σ s b v') (hne : v' ≠ v) (hlt : b' < b) :
    OutOfReach qs σ s b' v :=
  fun _ e hsound => hsound.not_chosenAt_of_safeBelow (e.safeBelow h) hne hlt

/-- Another value has been chosen. -/
theorem of_chosen (h : ChosenAt qs σ s b' v') (hne : v' ≠ v) : OutOfReach qs σ s b v :=
  fun _ e hsound hch => hne (hsound.chosen_agree (e.chosenAt h) hch)

end OutOfReach

end PaxosPayments.Voting
