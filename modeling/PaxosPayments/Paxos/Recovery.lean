import PaxosPayments.Paxos.Acceptor

/-!
# Recovery by a new leader

A candidate gathers the entries of its own log and of the promises it got, and `becomeLeader` takes
for every slot the one with the highest ballot. `Gathered` is what its loop computes
(`gather_spec`). When the promises come from a majority and report on all votes of their senders
(`Message.Reports`), the command it takes for a slot is safe to propose in the new ballot, and a
slot without an entry is free (`safeBelow_recovered`, `safeBelow_free`).
-/

namespace PaxosPayments.Paxos

/-! ## The loop of `becomeLeader` -/

/-- What the loop has computed after the entries `es`: for every slot from `first` on the entry with
the highest ballot, and the highest slot. -/
structure Gathered (first : ℕ) (es : List Entry) (acc : (ℕ → Option Entry) × ℕ) : Prop where
  first_le : ∀ {s e}, acc.1 s = some e → first ≤ s
  mem : ∀ {s e}, acc.1 s = some e → e ∈ es ∧ e.slot = s
  highest : ∀ {s e}, acc.1 s = some e → ∀ e' ∈ es, e'.slot = s → e'.ballot ≤ e.ballot
  covers : ∀ e ∈ es, first ≤ e.slot → ∃ e', acc.1 e.slot = some e'
  bound : ∀ e ∈ es, first ≤ e.slot → e.slot ≤ acc.2

/-- An entry below the first slot is skipped. -/
theorem Gathered.skip {first : ℕ} {es : List Entry} {acc : (ℕ → Option Entry) × ℕ} {e : Entry}
    (h : Gathered first es acc) (hlt : e.slot < first) : Gathered first (es ++ [e]) acc where
  first_le := h.first_le
  mem hs := ⟨List.mem_append_left _ (h.mem hs).1, (h.mem hs).2⟩
  highest {s e₀} hs e' he' hslot := by
    rcases List.mem_append.mp he' with he' | he'
    · exact h.highest hs e' he' hslot
    · have := h.first_le hs
      obtain rfl := List.mem_singleton.mp he'
      omega
  covers e' he' hle := by
    rcases List.mem_append.mp he' with he' | he'
    · exact h.covers e' he' hle
    · obtain rfl := List.mem_singleton.mp he'
      omega
  bound e' he' hle := by
    rcases List.mem_append.mp he' with he' | he'
    · exact h.bound e' he' hle
    · obtain rfl := List.mem_singleton.mp he'
      omega

/-- The map after one more entry, for each of its slots: the entry of before, or the new one. -/
theorem gatherStep_apply {first : ℕ} (acc : (ℕ → Option Entry) × ℕ) {e : Entry}
    (hle : first ≤ e.slot) (s : ℕ) :
    s = e.slot ∧ (Node.gatherStep first acc e).1 s = some e ∧
        (∀ e₀, acc.1 s = some e₀ → e₀.ballot ≤ e.ballot) ∨
      (Node.gatherStep first acc e).1 s = acc.1 s ∧
        (s = e.slot → ∃ e₀, acc.1 s = some e₀ ∧ e.ballot ≤ e₀.ballot) := by
  unfold Node.gatherStep
  rw [if_neg (by omega)]
  dsimp only
  by_cases hs : s = e.slot
  · subst hs
    cases hacc : acc.1 e.slot with
    | none => simp
    | some cur =>
      by_cases hlt : cur.ballot.less e.ballot = true
      · left
        have hlt' := (Ballot.less_iff _ _).mp hlt
        simp [hlt, hlt'.le]
      · right
        rw [Bool.not_eq_true] at hlt
        have hle' := (Ballot.less_eq_false_iff _ _).mp hlt
        simp [hlt, hacc, hle']
  · right
    refine ⟨?_, fun h => absurd h hs⟩
    split_ifs
    · exact Function.update_of_ne hs _ _
    · rfl

theorem gatherStep_of_lt {first : ℕ} (acc : (ℕ → Option Entry) × ℕ) {e : Entry}
    (hlt : e.slot < first) : Node.gatherStep first acc e = acc := by
  unfold Node.gatherStep
  rw [if_pos hlt]

theorem gatherStep_snd {first : ℕ} (acc : (ℕ → Option Entry) × ℕ) {e : Entry}
    (hle : first ≤ e.slot) :
    (Node.gatherStep first acc e).2 = if e.slot > acc.2 then e.slot else acc.2 := by
  unfold Node.gatherStep
  rw [if_neg (by omega)]

theorem Gathered.step {first : ℕ} {es : List Entry} {acc : (ℕ → Option Entry) × ℕ} {e : Entry}
    (h : Gathered first es acc) (hle : first ≤ e.slot) :
    Gathered first (es ++ [e]) (Node.gatherStep first acc e) := by
  have happ : ∀ e', e' ∈ es ++ [e] → e' ∈ es ∨ e' = e := fun e' he' => by simpa using he'
  refine ⟨fun {s e'} hs => ?_, fun {s e'} hs => ?_, fun {s e'} hs e'' he'' hslot => ?_,
    fun e' he' hle' => ?_, fun e' he' hle' => ?_⟩
  · rcases gatherStep_apply acc hle s with ⟨rfl, -⟩ | ⟨heq, -⟩
    · exact hle
    · exact h.first_le (heq ▸ hs)
  · rcases gatherStep_apply acc hle s with ⟨rfl, hnew, -⟩ | ⟨heq, -⟩
    · obtain rfl := Option.some.inj (hnew.symm.trans hs)
      exact ⟨by simp, rfl⟩
    · obtain ⟨h₁, h₂⟩ := h.mem (heq ▸ hs)
      exact ⟨List.mem_append_left _ h₁, h₂⟩
  · rcases gatherStep_apply acc hle s with ⟨rfl, hnew, hold⟩ | ⟨heq, hcur⟩
    · obtain rfl := Option.some.inj (hnew.symm.trans hs)
      rcases happ e'' he'' with he'' | rfl
      · obtain ⟨e₀, he₀⟩ := h.covers e'' he'' (hslot ▸ hle)
        rw [hslot] at he₀
        exact (h.highest he₀ e'' he'' hslot).trans (hold e₀ he₀)
      · exact le_rfl
    · rw [heq] at hs
      rcases happ e'' he'' with he'' | rfl
      · exact h.highest hs e'' he'' hslot
      · obtain ⟨e₀, he₀, hb⟩ := hcur hslot.symm
        obtain rfl := Option.some.inj (he₀.symm.trans hs)
        exact hb
  · rcases gatherStep_apply acc hle e'.slot with ⟨-, hnew, -⟩ | ⟨heq, hcur⟩
    · exact ⟨e, hnew⟩
    · rw [heq]
      rcases happ e' he' with he' | rfl
      · exact h.covers e' he' hle'
      · obtain ⟨e₀, he₀, -⟩ := hcur rfl
        exact ⟨e₀, he₀⟩
  · rw [gatherStep_snd acc hle]
    rcases happ e' he' with he' | rfl
    · have := h.bound e' he' hle'
      split_ifs <;> omega
    · split_ifs <;> omega

theorem gather_append_singleton (first : ℕ) (es : List Entry) (e : Entry) :
    Node.gather first (es ++ [e]) = Node.gatherStep first (Node.gather first es) e := by
  simp [Node.gather, List.foldl_append]

/-- **What `becomeLeader` gathers.** -/
theorem gather_spec (first : ℕ) (es : List Entry) : Gathered first es (Node.gather first es) := by
  induction es using List.reverseRecOn with
  | nil => exact ⟨by simp [Node.gather], by simp [Node.gather], by simp [Node.gather], by simp,
      by simp⟩
  | append_singleton es e ih =>
    rw [gather_append_singleton]
    rcases Nat.lt_or_ge e.slot first with hlt | hle
    · rw [gatherStep_of_lt _ hlt]
      exact ih.skip hlt
    · exact ih.step hle

/-! ## Safe values -/

variable {qs : Voting.Quorums NodeID} {σ τ : Votes}

/-- The entries `es` answer for the votes that `a` cast below `next`, from the slot `first` on. -/
def Covers (qs : Voting.Quorums NodeID) (σ : Votes) (a : NodeID) (es : List Entry) (next : Ballot)
    (first : ℕ) : Prop :=
  ∀ v : Entry, σ.voted a v.slot v.ballot v.command → first ≤ v.slot → v.ballot < next →
    ∃ e ∈ es, e.slot = v.slot ∧ e.Answers qs σ v

/-- The promise `m` for the ballot `next` reports on the votes of its sender. -/
structure Message.Reports (qs : Voting.Quorums NodeID) (σ : Votes) (m : Message) (next : Ballot)
    (first : ℕ) : Prop where
  reached : next ≤ σ.bal m.sender
  proposed : ∀ e ∈ m.entries, e.Proposed σ
  covers : Covers qs σ m.sender m.entries next first

/-- A report stays complete: its sender no longer votes below the ballot. -/
theorem Message.Reports.mono {m : Message} {next : Ballot} {first : ℕ} (he : Voting.Extends σ τ)
    (h : m.Reports qs σ next first) : m.Reports qs τ next first := by
  refine ⟨h.reached.trans (he.bal _), fun e hm => he.proposed (h.proposed e hm),
    fun v hv hs hb => ?_⟩
  rcases he.fresh hv with hold | hge
  · obtain ⟨e, hm, hslot, hans⟩ := h.covers v hold hs hb
    exact ⟨e, hm, hslot, he.answers hans⟩
  · exact absurd (h.reached.trans hge) hb.not_ge

/-- The log of a replica answers for its votes. -/
theorem Node.Safe.covers {n : Node} {a : NodeID} (h : n.Safe qs σ)
    (hvoted : ∀ v : Entry, σ.voted a v.slot v.ballot v.command → .voted v ∈ n.history)
    (next : Ballot) (first : ℕ) : Covers qs σ a (n.log.entriesFrom first) next first := by
  intro v hv hs _
  obtain ⟨-, -, e, he, hans⟩ := h.votes v (hvoted v hv)
  exact ⟨e, Log.mem_entriesFrom.mpr ⟨v.slot, hs, h.bound _ _ he, he⟩, h.slot _ _ he, hans⟩

theorem Node.Safe.proposed {n : Node} (h : n.Safe qs σ) {first : ℕ} {e : Entry}
    (he : e ∈ n.log.entriesFrom first) : e.Proposed σ := by
  obtain ⟨s, -, -, hs⟩ := Log.mem_entriesFrom.mp he
  exact h.stored s e hs

section Quorum

variable {Q : Finset NodeID} {next : Ballot} {first : ℕ} {es : List Entry}

/-- **The command recovered for a slot is safe.** -/
theorem safeBelow_recovered (hσ : Voting.Sound qs σ) (hQ : qs.IsQuorum Q)
    (hbal : ∀ a ∈ Q, next ≤ σ.bal a) (hprop : ∀ e ∈ es, e.Proposed σ)
    (hcov : ∀ a ∈ Q, Covers qs σ a es next first) {s : ℕ} {em : Entry}
    (hem : (Node.gather first es).1 s = some em) : Voting.SafeBelow qs σ s next em.command := by
  have hg := gather_spec first es
  obtain ⟨hmem, rfl⟩ := hg.mem hem
  refine Voting.safeBelow_of_reports hσ hQ hbal (hprop em hmem) fun a ha b v hv hb => ?_
  obtain ⟨e, he, hslot, hans⟩ := hcov a ha ⟨em.slot, b, v⟩ hv (hg.first_le hem) hb
  exact ⟨e.ballot, e.command, hg.highest hem e he hslot, hans⟩

/-- **A slot for which nothing was gathered is free.** -/
theorem safeBelow_free (hQ : qs.IsQuorum Q) (hbal : ∀ a ∈ Q, next ≤ σ.bal a)
    (hcov : ∀ a ∈ Q, Covers qs σ a es next first) {s : ℕ} (hs : first ≤ s)
    (hnone : (Node.gather first es).1 s = none) (v : Command) :
    Voting.SafeBelow qs σ s next v := by
  refine Voting.safeBelow_of_no_votes hQ hbal (fun a ha b v' hv hb => ?_) v
  obtain ⟨e, he, hslot, -⟩ := hcov a ha ⟨s, b, v'⟩ hv hs hb
  obtain rfl : e.slot = s := hslot
  obtain ⟨e', he'⟩ := (gather_spec first es).covers e he hs
  rw [hnone] at he'
  simp at he'

/-- Above the highest gathered slot every slot is free. -/
theorem gather_eq_none {s : ℕ} (hs : (Node.gather first es).2 < s) :
    (Node.gather first es).1 s = none := by
  cases h : (Node.gather first es).1 s with
  | none => rfl
  | some e =>
    have hg := gather_spec first es
    obtain ⟨hmem, rfl⟩ := hg.mem h
    have := hg.bound e hmem (hg.first_le h)
    omega

end Quorum

end PaxosPayments.Paxos
