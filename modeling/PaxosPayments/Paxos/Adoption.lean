import Mathlib.Data.List.MinMax
import Mathlib.Order.Nat
import PaxosPayments.Paxos.Process
import PaxosPayments.Paxos.Recovery

/-!
# What a new leader adopts

`becomeLeader` as a whole: the map of the best entries, the next slot, and the goroutine that calls
`replicate` for one slot after the other. The goroutine goes on while `replicate` succeeds, so
`reproposals` has the outcome of each call as a parameter, and a number of rounds after which the
loop is given up.

Gathered entries with the same slot and ballot have the same command, so the map depends only on
which entries from the first slot on were gathered (`gather_congr`). Every slot up to the largest
one gets the command of an entry with the highest ballot, or a no-op (`becomeLeader_adopts`).
Whatever else happens in the process, the goroutine calls `replicate` for these slots with these
commands and in this order (`proposals_becoming`).
-/

namespace PaxosPayments.Paxos

namespace Node

/-- The calls of `replicate` that the recovery makes from a slot on, in at most `fuel` rounds. It
ends with the first call that fails. -/
def reproposals (succeeds : ℕ → Bool) (best : ℕ → Option Entry) (maxSlot : ℕ) :
    ℕ → ℕ → Option (List (ℕ × Command))
  | 0, _ => none
  | fuel + 1, slot =>
    if slot ≤ maxSlot then
      if succeeds slot then
        (reproposals succeeds best maxSlot fuel (uint64Succ slot)).map
          ((slot, recoveredCommand best slot) :: ·)
      else some [(slot, recoveredCommand best slot)]
    else some []

/-- The whole of `becomeLeader`: the replica after the critical section, and the calls of the
recovery. -/
def recover (n : Node) (succeeds : ℕ → Bool) (fuel : ℕ) (id : NodeID) (b : Ballot)
    (gathered : List Entry) (first : ℕ) : Node × Option (List (ℕ × Command)) :=
  let best := gather first gathered
  (n.becomeLeader id b first best.2, reproposals succeeds best.1 best.2 fuel first)

/-- The calls of a recovery in which no call fails. -/
def adopted (best : ℕ → Option Entry) (maxSlot first : ℕ) : List (ℕ × Command) :=
  (List.range' first (maxSlot + 1 - first)).map fun slot => (slot, recoveredCommand best slot)

variable {best : ℕ → Option Entry} {maxSlot slot : ℕ}

theorem adopted_of_le (h : slot ≤ maxSlot) :
    adopted best maxSlot slot =
      (slot, recoveredCommand best slot) :: adopted best maxSlot (slot + 1) := by
  have hlength : maxSlot + 1 - slot = maxSlot + 1 - (slot + 1) + 1 := by omega
  rw [adopted, hlength, List.range'_succ, List.map_cons, adopted]

theorem adopted_of_lt (h : maxSlot < slot) : adopted best maxSlot slot = [] := by
  rw [adopted, Nat.sub_eq_zero_of_le h]
  rfl

/-- The loop ends: it makes all calls, or those up to the first that fails. -/
theorem reproposals_eq_some (succeeds : ℕ → Bool) (best : ℕ → Option Entry)
    (hwrap : maxSlot + 1 < 2 ^ 64) {fuel : ℕ} (hfuel : maxSlot + 1 - slot < fuel) :
    ∃ calls, reproposals succeeds best maxSlot fuel slot = some calls ∧
      calls <+: adopted best maxSlot slot ∧
      ((∀ s, slot ≤ s → s ≤ maxSlot → succeeds s = true) →
        calls = adopted best maxSlot slot) := by
  induction fuel generalizing slot with
  | zero => omega
  | succ fuel ih =>
    rw [reproposals]
    split_ifs with hle hok
    · rw [uint64Succ_of_lt (by omega), adopted_of_le hle]
      obtain ⟨calls, hcalls, hprefix, hall⟩ := ih (by omega : maxSlot + 1 - (slot + 1) < fuel)
      refine ⟨_, by rw [hcalls, Option.map_some],
        List.prefix_cons_inj _ |>.mpr hprefix, fun h => ?_⟩
      rw [hall fun s hs => h s (by omega)]
    · refine ⟨_, rfl, ?_, fun h => absurd (h slot le_rfl hle) hok⟩
      rw [adopted_of_le hle]
      exact List.prefix_cons_inj _ |>.mpr List.nil_prefix
    · rw [adopted_of_lt (by omega)]
      exact ⟨[], rfl, List.nil_prefix, fun _ => rfl⟩

end Node

/-! ## The recovery goroutine -/

/-- What a goroutine finds when it takes a step: the replica, which others may have changed since
its last step, and what the step is given. -/
structure Turn where
  node : Node
  disk : Bool
  expired : Bool
  replies : List Message

/-- `replicate` never goes back to its beginning. -/
theorem Replication.next_ne_check {cfg : Config} {slot : ℕ} {command : Command} {n n' : Node}
    {disk : Bool} {replies : List Message} {r r' : Replication}
    (h : r.next cfg slot command n disk replies = (n', .goOn r')) : r' ≠ .check := by
  rintro rfl
  cases r with
  | check =>
    simp only [Replication.next, Prod.mk.injEq] at h
    split_ifs at h <;> simp at h
  | store b =>
    simp only [Replication.next] at h
    split_ifs at h <;> simp at h
  | collect b =>
    simp only [Replication.next] at h
    split at h
    · simp at h
    · split_ifs at h <;> simp at h
  | stepDown d =>
    simp only [Replication.next] at h
    split at h <;> simp at h
  | mark => simp [Replication.next] at h

namespace Goroutine

/-- The call of `replicate` that a recovery is about to make. -/
def proposal : Goroutine → List (ℕ × Command)
  | recovery best _ slot .check => [(slot, Node.recoveredCommand best slot)]
  | _ => []

/-- The calls of `replicate` that a goroutine makes in its next steps. -/
def proposals (cfg : Config) (id : NodeID) : Goroutine → List Turn → List (ℕ × Command)
  | g, [] => g.proposal
  | g, t :: ts =>
    g.proposal ++ match (g.next cfg id t.node t.disk t.expired t.replies).2 with
      | some g' => proposals cfg id g' ts
      | none => []

variable {cfg : Config} {id : NodeID} {best : ℕ → Option Entry} {maxSlot slot : ℕ}

/-- The calls still to come: that for the slot itself only if `replicate` has not begun. -/
theorem proposals_recovery (hwrap : maxSlot + 1 < 2 ^ 64) (hle : slot ≤ maxSlot) (r : Replication)
    (ts : List Turn) : ∃ rest, rest <+: Node.adopted best maxSlot (slot + 1) ∧
      proposals cfg id (recovery best maxSlot slot r) ts =
        (recovery best maxSlot slot r).proposal ++ rest := by
  induction ts generalizing slot r with
  | nil => exact ⟨[], List.nil_prefix, (List.append_nil _).symm⟩
  | cons t ts ih =>
    rw [proposals]
    refine ⟨_, ?_, rfl⟩
    cases hr : r.next cfg slot (Node.recoveredCommand best slot) t.node t.disk t.replies with
    | mk n' progress =>
      cases progress with
      | goOn r' =>
        simp only [next, hr]
        obtain ⟨rest, hrest, heq⟩ := ih hle r'
        have hnone : (recovery best maxSlot slot r').proposal = [] := by
          cases r' with
          | check => exact absurd rfl (Replication.next_ne_check hr)
          | store b | collect b | stepDown d | mark => rfl
        rwa [heq, hnone, List.nil_append]
      | returned ok =>
        have hsucc : uint64Succ slot = slot + 1 := uint64Succ_of_lt (by omega)
        simp only [next, hr, hsucc]
        by_cases hgo : (ok && decide (slot + 1 ≤ maxSlot)) = true
        · rw [if_pos hgo]
          have hle' : slot + 1 ≤ maxSlot := of_decide_eq_true (Bool.and_eq_true_iff.mp hgo).2
          obtain ⟨rest, hrest, heq⟩ := ih hle' .check
          rw [Node.adopted_of_le hle']
          simp only [heq, proposal, List.singleton_append]
          exact (List.prefix_cons_inj _).mpr hrest
        · rw [if_neg hgo]
          exact List.nil_prefix

/-- **The calls of the recovery in a running process** are those of `recover`, in its order,
whatever comes between its steps. -/
theorem proposals_becoming (hwrap : maxSlot + 1 < 2 ^ 64) (b : Ballot) (first : ℕ)
    (ts : List Turn) :
    proposals cfg id (becoming b best first maxSlot) ts <+: Node.adopted best maxSlot first := by
  cases ts with
  | nil => exact List.nil_prefix
  | cons t ts =>
    simp only [proposals, next, proposal, List.nil_append]
    by_cases hle : first ≤ maxSlot
    · rw [if_pos hle]
      obtain ⟨rest, hrest, heq⟩ :=
        @proposals_recovery cfg id best maxSlot first hwrap hle .check ts
      rw [Node.adopted_of_le hle]
      simp only [heq, proposal, List.singleton_append]
      exact (List.prefix_cons_inj _).mpr hrest
    · rw [if_neg hle]
      exact List.nil_prefix

end Goroutine

/-- The entries that the new leader assigns in the model of the group. -/
theorem recovered_eq_map_adopted (best : ℕ → Option Entry) (b : Ballot) (first maxSlot : ℕ) :
    ReplicaGroup.recovered best b first maxSlot =
      (Node.adopted best maxSlot first).map fun call => ⟨call.1, b, call.2⟩ := by
  rw [ReplicaGroup.recovered, Node.adopted, List.map_map]
  rfl

/-! ## The gathered entries -/

/-- Entries with the same slot and ballot have the same command. -/
def Agree (es : List Entry) : Prop :=
  ∀ e ∈ es, ∀ e' ∈ es, e.slot = e'.slot → e.ballot = e'.ballot → e.command = e'.command

/-- The largest slot of the entries, `0` if there are none. -/
def largestSlot (es : List Entry) : ℕ := (es.map Entry.slot).foldr max 0

/-- A command that a new leader may propose for the slot: that of an entry with the highest ballot,
or a no-op if there is no entry. -/
def Adoptable (es : List Entry) (slot : ℕ) (command : Command) : Prop :=
  (∃ e ∈ es, e.slot = slot ∧ e.command = command ∧
      ∀ e' ∈ es, e'.slot = slot → e'.ballot ≤ e.ballot) ∨
    ((∀ e ∈ es, e.slot ≠ slot) ∧ command = [])

variable {first : ℕ} {es es' : List Entry}

theorem slot_le_largestSlot {e : Entry} (h : e ∈ es) : e.slot ≤ largestSlot es := by
  have hle : e.slot ≤ (es.map Entry.slot).foldr max ⊥ :=
    List.le_max_of_le (List.mem_map_of_mem h) le_rfl
  exact hle

theorem largestSlot_le {k : ℕ} (h : ∀ e ∈ es, e.slot ≤ k) : largestSlot es ≤ k := by
  have hle : (es.map Entry.slot).foldr max ⊥ ≤ k := by
    refine List.max_le_of_forall_le _ _ fun s hs => ?_
    obtain ⟨e, he, rfl⟩ := List.mem_map.mp hs
    exact h e he
  exact hle

/-- The number `maxSlot` is the slot of an entry, or has not been set. -/
theorem gather_snd_cases (first : ℕ) (es : List Entry) :
    (Node.gather first es).2 = 0 ∨
      ∃ e ∈ es, first ≤ e.slot ∧ e.slot = (Node.gather first es).2 := by
  induction es using List.reverseRecOn with
  | nil => exact Or.inl rfl
  | append_singleton es e ih =>
    have hold : (Node.gather first es).2 = 0 ∨
        ∃ e' ∈ es ++ [e], first ≤ e'.slot ∧ e'.slot = (Node.gather first es).2 := by
      rcases ih with h | ⟨e', he', h⟩
      · exact Or.inl h
      · exact Or.inr ⟨e', List.mem_append_left _ he', h⟩
    rw [gather_append_singleton]
    rcases Nat.lt_or_ge e.slot first with hlt | hle
    · rw [gatherStep_of_lt _ hlt]
      exact hold
    · rw [gatherStep_snd _ hle]
      split_ifs
      · exact Or.inr ⟨e, by simp, hle, rfl⟩
      · exact hold

theorem gather_snd_le (first : ℕ) (es : List Entry) :
    (Node.gather first es).2 ≤ largestSlot es := by
  rcases gather_snd_cases first es with h | ⟨e, he, -, h⟩
  · rw [h]
    exact Nat.zero_le _
  · rw [← h]
    exact slot_le_largestSlot he

/-- The slots of the recovery end with the largest one. Both numbers are `0` if nothing was
gathered; `maxSlot` is `0` also if all entries are below the first slot, and then there is no slot.
-/
theorem gather_snd_sub (first : ℕ) (es : List Entry) :
    (Node.gather first es).2 + 1 - first = largestSlot es + 1 - first := by
  have hle := gather_snd_le first es
  rcases Nat.lt_or_ge (largestSlot es) first with hlt | hge
  · omega
  · have hlargest : largestSlot es ≤ max (first - 1) (Node.gather first es).2 := by
      refine largestSlot_le fun e he => ?_
      rcases Nat.lt_or_ge e.slot first with hlt | hfirst
      · omega
      · have := (gather_spec first es).bound e he hfirst
        omega
    omega

section Congr

variable {acc acc' : (ℕ → Option Entry) × ℕ}

/-- An entry with the highest ballot for its slot is the one that is found. -/
theorem Gathered.apply_eq_some (h : Gathered first es acc) (h' : Gathered first es' acc')
    (hagree : Agree es) (hmem : ∀ e : Entry, first ≤ e.slot → (e ∈ es' ↔ e ∈ es)) {s : ℕ}
    {e : Entry} (he : acc'.1 s = some e) : acc.1 s = some e := by
  have hfirst := h'.first_le he
  obtain ⟨hes', rfl⟩ := h'.mem he
  have hes := (hmem e hfirst).mp hes'
  obtain ⟨w, hw⟩ := h.covers e hes hfirst
  obtain ⟨hwes, hslot⟩ := h.mem hw
  have hballot : w.ballot = e.ballot := by
    refine le_antisymm ?_ (h.highest hw e hes rfl)
    exact h'.highest he w ((hmem w (hslot ▸ hfirst)).mpr hwes) hslot
  have hcommand := hagree w hwes e hes hslot hballot
  have heq : w = e := by
    cases w
    cases e
    simp_all
  rw [hw, heq]

theorem Gathered.fst_eq (h : Gathered first es acc) (h' : Gathered first es' acc')
    (hagree : Agree es) (hmem : ∀ e : Entry, first ≤ e.slot → (e ∈ es' ↔ e ∈ es)) :
    acc'.1 = acc.1 := by
  refine funext fun s => Option.ext fun e => ⟨h.apply_eq_some h' hagree hmem, fun he => ?_⟩
  have hfirst := h.first_le he
  obtain ⟨hes, rfl⟩ := h.mem he
  obtain ⟨w, hw⟩ := h'.covers e ((hmem e hfirst).mpr hes) hfirst
  have hw' := h.apply_eq_some h' hagree hmem hw
  rw [hw, ← hw', he]

end Congr

/-- **What is gathered depends only on the set of entries from the first slot on**: not on their
order, not on how often one is reported, and not on the entries below. -/
theorem gather_congr (hagree : Agree es)
    (hmem : ∀ e : Entry, first ≤ e.slot → (e ∈ es' ↔ e ∈ es)) :
    Node.gather first es' = Node.gather first es := by
  have h := gather_spec first es
  have h' := gather_spec first es'
  refine Prod.ext (h.fst_eq h' hagree hmem) (le_antisymm ?_ ?_)
  · rcases gather_snd_cases first es' with hzero | ⟨e, he, hfirst, heq⟩
    · omega
    · exact heq ▸ h.bound e ((hmem e hfirst).mp he) hfirst
  · rcases gather_snd_cases first es with hzero | ⟨e, he, hfirst, heq⟩
    · omega
    · exact heq ▸ h'.bound e ((hmem e hfirst).mpr he) hfirst

theorem adoptable_recoveredCommand {s : ℕ} (hs : first ≤ s) :
    Adoptable es s (Node.recoveredCommand (Node.gather first es).1 s) := by
  have h := gather_spec first es
  unfold Node.recoveredCommand
  cases hbest : (Node.gather first es).1 s with
  | some e =>
    obtain ⟨hmem, hslot⟩ := h.mem hbest
    exact Or.inl ⟨e, hmem, hslot, rfl, h.highest hbest⟩
  | none =>
    refine Or.inr ⟨fun e he hslot => ?_, rfl⟩
    obtain ⟨w, hw⟩ := h.covers e he (hslot ▸ hs)
    rw [hslot, hbest] at hw
    cases hw

theorem nextSlot_becomeLeader (id : NodeID) (n : Node) (b : Ballot)
    (hwrap : (Node.gather first es).2 + 1 < 2 ^ 64) :
    first ≤ (n.becomeLeader id b first (Node.gather first es).2).nextSlot ∧
      ∀ e ∈ es, e.slot < (n.becomeLeader id b first (Node.gather first es).2).nextSlot := by
  have hnext : (n.becomeLeader id b first (Node.gather first es).2).nextSlot =
      max first ((Node.gather first es).2 + 1) := by
    simp only [Node.becomeLeader, uint64Succ_of_lt hwrap]
    split_ifs <;> omega
  rw [hnext]
  refine ⟨le_max_left _ _, fun e he => ?_⟩
  rcases Nat.lt_or_ge e.slot first with hlt | hfirst
  · omega
  · have := (gather_spec first es).bound e he hfirst
    omega

/-! ## Adoption -/

/-- **Recovery adopts the right commands.** The calls are for the slots from `first` to the largest
one, in this order, each with a command that may be adopted; a failing call ends them early. What is
done depends only on the set of entries from `first` on, and the next slot is above all entries. -/
theorem becomeLeader_adopts (first : ℕ) {es : List Entry} (hagree : Agree es)
    (hslots : ∀ e ∈ es, e.slot < 2 ^ 64 - 1) (id : NodeID) (n : Node) (b : Ballot)
    (succeeds : ℕ → Bool) {fuel : ℕ} (hfuel : largestSlot es + 1 - first < fuel) :
    (∃ all calls, (n.recover (fun _ => true) fuel id b es first).2 = some all ∧
        (n.recover succeeds fuel id b es first).2 = some calls ∧ calls <+: all ∧
        all.map Prod.fst = List.range' first (largestSlot es + 1 - first) ∧
        ∀ call ∈ all, Adoptable es call.1 call.2) ∧
      (∀ es' : List Entry, (∀ e : Entry, first ≤ e.slot → (e ∈ es' ↔ e ∈ es)) →
        n.recover succeeds fuel id b es' first = n.recover succeeds fuel id b es first) ∧
      first ≤ (n.recover succeeds fuel id b es first).1.nextSlot ∧
      ∀ e ∈ es, e.slot < (n.recover succeeds fuel id b es first).1.nextSlot := by
  have hwrap : (Node.gather first es).2 + 1 < 2 ^ 64 := by
    rcases gather_snd_cases first es with h | ⟨e, he, -, h⟩
    · omega
    · have := hslots e he
      omega
  rw [← gather_snd_sub first es] at hfuel
  refine ⟨?_, fun es' hmem => ?_, nextSlot_becomeLeader id n b hwrap⟩
  · obtain ⟨all, hall, -, heq⟩ :=
      Node.reproposals_eq_some (fun _ => true) (Node.gather first es).1 hwrap hfuel
    obtain rfl := heq fun _ _ _ => rfl
    obtain ⟨calls, hcalls, hprefix, -⟩ :=
      Node.reproposals_eq_some succeeds (Node.gather first es).1 hwrap hfuel
    refine ⟨_, calls, hall, hcalls, hprefix, ?_, fun call hcall => ?_⟩
    · rw [← gather_snd_sub first es, Node.adopted, List.map_map]
      exact List.map_id _
    · obtain ⟨s, hs, rfl⟩ := List.mem_map.mp hcall
      exact adoptable_recoveredCommand (List.mem_range'_1.mp hs).1
  · simp only [Node.recover, gather_congr hagree hmem]

/-- Two replicas report slot 2 under different ballots, and nobody reports slot 3. -/
def reported : List Entry :=
  [⟨4, ⟨1, "A"⟩, [4]⟩, ⟨2, ⟨1, "A"⟩, [1]⟩, ⟨2, ⟨2, "B"⟩, [2]⟩, ⟨1, ⟨3, "C"⟩, [9]⟩,
    ⟨2, ⟨1, "A"⟩, [1]⟩]

theorem becomeLeader_adopts_reported :
    (Node.fresh.recover (fun _ => true) 4 "A" ⟨4, "A"⟩ reported 2).2 =
        some [(2, [2]), (3, []), (4, [4])] ∧
      Agree reported ∧ (∀ e ∈ reported, e.slot < 2 ^ 64 - 1) ∧
      2 ≤ (Node.fresh.recover (fun _ => true) 4 "A" ⟨4, "A"⟩ reported 2).1.nextSlot ∧
      ∀ e ∈ reported,
        e.slot < (Node.fresh.recover (fun _ => true) 4 "A" ⟨4, "A"⟩ reported 2).1.nextSlot := by
  have hagree : Agree reported := by
    unfold Agree
    decide
  have hslots : ∀ e ∈ reported, e.slot < 2 ^ 64 - 1 := by decide
  have hfuel : largestSlot reported + 1 - 2 < 4 := by decide
  obtain ⟨-, -, hfirst, habove⟩ :=
    becomeLeader_adopts 2 hagree hslots "A" Node.fresh ⟨4, "A"⟩ (fun _ => true) hfuel
  exact ⟨by decide +kernel, hagree, hslots, hfirst, habove⟩

end PaxosPayments.Paxos
