import PaxosPayments.Paxos.Outcome

/-!
# The applied log of a replica

`Node.appliedLog` lists the slots that a replica has applied, with their commands, newest first. It
grows by one slot at a time, in the apply loop and nowhere else (`Outcome.applied`), so it always
holds the slots from `appliedIndex` down to 1 (`InOrder`). Where two replicas agree in each slot,
the log of the one that is behind is the older part of the other's (`InOrder.suffix`).
-/

namespace PaxosPayments.Paxos

/-- What is passed to the state machine is the stored command, also for a no-op. -/
theorem Entry.applied_command (e : Entry) :
    (if e.isNoop then [] else e.command) = e.command := by
  unfold Entry.isNoop
  cases e.command with
  | nil => rfl
  | cons x xs => simp

namespace Node

variable {n n' : Node}

def appliedLog (n : Node) : List (ℕ × Command) :=
  n.history.filterMap fun
    | .applied s c => some (s, c)
    | _ => none

theorem mem_appliedLog {s : ℕ} {c : Command} :
    (s, c) ∈ n.appliedLog ↔ .applied s c ∈ n.history := by
  rw [appliedLog, List.mem_filterMap]
  constructor
  · rintro ⟨ev, hev, heq⟩
    cases ev with
    | applied s' c' =>
      obtain ⟨rfl, rfl⟩ := Prod.mk.inj (Option.some.inj heq)
      exact hev
    | _ => simp at heq
  · exact fun h => ⟨_, h, rfl⟩

/-- Nothing has been applied in between. -/
structure SameApplied (n n' : Node) : Prop where
  index : n'.appliedIndex = n.appliedIndex
  log : n'.appliedLog = n.appliedLog

namespace SameApplied

/-- A change that does not touch the history. -/
theorem of_history (hi : n'.appliedIndex = n.appliedIndex) (hh : n'.history = n.history) :
    SameApplied n n' :=
  ⟨hi, by rw [appliedLog, hh, appliedLog]⟩

theorem trans {n'' : Node} (h : SameApplied n n') (h' : SameApplied n' n'') : SameApplied n n'' :=
  ⟨h'.index.trans h.index, h'.log.trans h.log⟩

theorem promise (n : Node) (b : Ballot) : SameApplied n (n.promise b) := ⟨rfl, rfl⟩

theorem vote (n : Node) (e : Entry) : SameApplied n (n.vote e) := ⟨rfl, rfl⟩

theorem adopt (n : Node) (e : Entry) : SameApplied n (n.adopt e) := ⟨rfl, rfl⟩

theorem stepsDown (h : n.StepsDown n') : SameApplied n n' := by
  rcases h with rfl | ⟨b, disk, rfl⟩
  · exact ⟨rfl, rfl⟩
  · unfold Node.stepDown
    dsimp only
    split_ifs <;> exact ⟨rfl, rfl⟩

theorem catchUpLoop (entries : List Entry) (fuel slot disk : ℕ) (n : Node) :
    SameApplied n (Node.catchUpLoop entries fuel slot disk n).2 := by
  induction fuel generalizing slot disk n with
  | zero => exact ⟨rfl, rfl⟩
  | succ fuel ih =>
    unfold Node.catchUpLoop
    split
    · exact ⟨rfl, rfl⟩
    · dsimp only
      split_ifs
      · exact ih _ _ _
      · exact ⟨rfl, rfl⟩
      · exact (adopt n _).trans (ih _ _ _)

theorem concludeCatchUp (n : Node) (first commitIndex : ℕ) (reply : Option Message) (disk : ℕ) :
    SameApplied n (n.concludeCatchUp first commitIndex reply disk) := by
  unfold Node.concludeCatchUp
  cases reply with
  | none => exact ⟨rfl, rfl⟩
  | some r =>
    dsimp only
    split_ifs
    · exact ⟨rfl, rfl⟩
    · exact (catchUpLoop _ _ _ _ n).trans (of_history rfl rfl)

theorem handle (id : NodeID) (n : Node) (msg : Message) (disk : ℕ) :
    SameApplied n (n.handle id msg disk).1 := by
  unfold Node.handle
  cases msg.kind with
  | prepare =>
    simp only [handlePrepare]
    split_ifs <;> exact ⟨rfl, rfl⟩
  | accept =>
    simp only [handleAccept]
    split_ifs <;> exact ⟨rfl, rfl⟩
  | commit =>
    simp only [handleCommit]
    split_ifs <;> exact ⟨rfl, rfl⟩
  | _ => exact ⟨rfl, rfl⟩

end SameApplied

/-- One round of the apply loop: the next slot, with the command that is stored there. -/
theorem applyNext_applied (h : n.applyNext = some n') :
    ∃ e, n.log.entries (uint64Succ n.appliedIndex) = some e ∧
      n'.appliedIndex = uint64Succ n.appliedIndex ∧
      n'.appliedLog = (uint64Succ n.appliedIndex, e.command) :: n.appliedLog := by
  unfold applyNext at h
  dsimp only at h
  split_ifs at h
  split at h
  · simp at h
  · rename_i e he
    obtain rfl := Option.some.inj h
    refine ⟨e, he, rfl, ?_⟩
    rw [Entry.applied_command]
    rfl

theorem committed_of_applyNext (h : n.applyNext = some n') :
    n.committed (uint64Succ n.appliedIndex) = true := by
  unfold applyNext at h
  dsimp only at h
  split_ifs at h with hc
  exact hc

end Node

namespace ReplicaGroup

variable {cfg : Config} {g g' : ReplicaGroup}

/-- **Only the apply loop applies.** -/
theorem Outcome.applied {act : Action} (ho : Outcome cfg g act g') (p : NodeID) :
    (g.nodes p).SameApplied (g'.nodes p) ∨
      act = .apply p ∧ (g.nodes p).applyNext = some (g'.nodes p) := by
  have hset : ∀ {id : NodeID} {n : Node}, g'.nodes = Function.update g.nodes id n →
      (g.nodes id).SameApplied n → (g.nodes p).SameApplied (g'.nodes p) := by
    intro id n hnodes hn
    rw [hnodes, Function.update_apply]
    split_ifs with hp
    · exact hp ▸ hn
    · exact ⟨rfl, rfl⟩
  cases ho with
  | @apply id n hn =>
    by_cases hp : p = id
    · subst hp
      exact Or.inr ⟨rfl, by simpa [setNode] using hn⟩
    · left
      simp only [setNode, Function.update_of_ne hp]
      exact ⟨rfl, rfl⟩
  | campaign => exact Or.inl (hset rfl (.of_history rfl rfl))
  | prepare => exact Or.inl (hset rfl (.promise _ _))
  | noPrepare _ hn => exact Or.inl (hset rfl (.stepsDown hn))
  | propose => exact Or.inl (hset rfl (.of_history rfl rfl))
  | replicate => exact Or.inl (hset rfl (.vote _ _))
  | noReplicate _ hn => exact Or.inl (hset rfl (.stepsDown hn))
  | heartbeat | collect | choose => exact Or.inl ⟨rfl, rfl⟩
  | answer | fetch => exact Or.inl (hset rfl (.handle _ _ _ _))
  | stop _ hn => exact Or.inl (hset rfl (.stepsDown hn))
  | lose => exact Or.inl (hset rfl ((Node.SameApplied.promise _ _).trans (.of_history rfl rfl)))
  | win => exact Or.inl (hset (winCampaign_nodes ..) (.of_history rfl rfl))
  | commit => exact Or.inl (hset (continueJob_nodes ..) (.of_history rfl rfl))
  | learn => exact Or.inl (hset rfl (.concludeCatchUp _ _ _ _ _))

/-- The applied log of a replica only grows. -/
theorem Outcome.appliedLog_suffix {act : Action} (ho : Outcome cfg g act g') (p : NodeID) :
    (g.nodes p).appliedLog <:+ (g'.nodes p).appliedLog := by
  rcases ho.applied p with hsame | ⟨-, hn⟩
  · exact hsame.log ▸ List.suffix_refl _
  · obtain ⟨e, -, -, hlog⟩ := Node.applyNext_applied hn
    rw [hlog]
    exact List.suffix_cons _ _

end ReplicaGroup

/-! ## Slots in order -/

/-- A log that holds the slots from `i` down to 1. -/
def InOrder : ℕ → List (ℕ × Command) → Prop
  | 0, log => log = []
  | i + 1, log => ∃ c rest, log = (i + 1, c) :: rest ∧ InOrder i rest

namespace InOrder

variable {i j : ℕ} {log log' : List (ℕ × Command)}

/-- From the oldest on, the slots are 1, 2 and so on. -/
theorem slots (h : InOrder i log) : (log.map Prod.fst).reverse = List.range' 1 i := by
  induction i generalizing log with
  | zero => rw [h, List.map_nil, List.reverse_nil, List.range'_zero]
  | succ i ih =>
    obtain ⟨c, rest, rfl, hrest⟩ := h
    rw [List.map_cons, List.reverse_cons, ih hrest, List.range'_1_concat, Nat.add_comm]

theorem length (h : InOrder i log) : log.length = i := by
  have hlength := congrArg List.length h.slots
  rwa [List.length_reverse, List.length_map, List.length_range'] at hlength

theorem mem_map_fst {s : ℕ} (h : InOrder i log) : s ∈ log.map Prod.fst ↔ 1 ≤ s ∧ s ≤ i := by
  rw [← List.mem_reverse, h.slots, List.mem_range'_1]
  omega

/-- What lies behind a slot are the slots below it. -/
theorem of_append {s : ℕ} {c : Command} {newer older : List (ℕ × Command)}
    (h : InOrder i (newer ++ (s, c) :: older)) : InOrder s ((s, c) :: older) := by
  induction newer generalizing i with
  | nil =>
    cases i with
    | zero => cases h
    | succ i =>
      obtain ⟨c', rest, heq, hrest⟩ := h
      obtain ⟨hhead, rfl⟩ := List.cons.inj heq
      obtain ⟨rfl, rfl⟩ := Prod.mk.inj hhead
      exact ⟨c, older, rfl, hrest⟩
  | cons x newer ih =>
    cases i with
    | zero => cases h
    | succ i =>
      obtain ⟨c', rest, heq, hrest⟩ := h
      obtain ⟨-, rfl⟩ := List.cons.inj heq
      exact ih hrest

theorem eq (h : InOrder i log) (h' : InOrder i log')
    (hagree : ∀ s c c', (s, c) ∈ log → (s, c') ∈ log' → c = c') : log = log' := by
  induction i generalizing log log' with
  | zero => exact h.trans h'.symm
  | succ i ih =>
    obtain ⟨c, rest, rfl, hrest⟩ := h
    obtain ⟨c', rest', rfl, hrest'⟩ := h'
    have htail : rest = rest' := ih hrest hrest' fun s c c' hc hc' =>
      hagree s c c' (List.mem_cons_of_mem _ hc) (List.mem_cons_of_mem _ hc')
    rw [htail, hagree (i + 1) c c' List.mem_cons_self List.mem_cons_self]

/-- **The log that is behind is the older part of the other.** -/
theorem suffix (h : InOrder i log) (h' : InOrder j log') (hij : i ≤ j)
    (hagree : ∀ s c c', (s, c) ∈ log → (s, c') ∈ log' → c = c') : log <:+ log' := by
  induction j generalizing log' with
  | zero =>
    obtain rfl : i = 0 := Nat.le_zero.mp hij
    exact h.eq h' hagree ▸ List.suffix_refl _
  | succ j ih =>
    rcases hij.eq_or_lt with rfl | hlt
    · exact h.eq h' hagree ▸ List.suffix_refl _
    · obtain ⟨c, rest, rfl, hrest⟩ := h'
      refine (ih hrest (Nat.lt_succ_iff.mp hlt) fun s c c' hc hc' => ?_).trans
        (List.suffix_cons _ _)
      exact hagree s c c' hc (List.mem_cons_of_mem _ hc')

end InOrder

namespace ReplicaGroup

variable {cfg : Config} {g g' : ReplicaGroup}

/-- Every replica has applied its slots in order. -/
def Ordered (g : ReplicaGroup) : Prop :=
  ∀ p, InOrder (g.nodes p).appliedIndex (g.nodes p).appliedLog

theorem Ordered.start : Ordered init := fun _ => rfl

/-- The order goes on as long as the index does not wrap. -/
theorem Ordered.next (h : g.Ordered) (hfew : ∀ p, (g.nodes p).appliedIndex + 1 < 2 ^ 64)
    {act : Action} (ho : Outcome cfg g act g') : g'.Ordered := by
  intro p
  rcases ho.applied p with hsame | ⟨-, hn⟩
  · rw [hsame.index, hsame.log]
    exact h p
  · obtain ⟨e, -, hi, hlog⟩ := Node.applyNext_applied hn
    rw [hi, hlog, uint64Succ_of_lt (hfew p)]
    exact ⟨e.command, _, rfl, h p⟩

end ReplicaGroup

end PaxosPayments.Paxos
