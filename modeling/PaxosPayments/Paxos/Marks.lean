import PaxosPayments.Foundations.Runs
import PaxosPayments.Paxos.Waiters

/-!
# Slots are marked after they are stored

`markCommitted` has two callers: `replicate`, which has written its own entry before it broadcasts
it, and `catchUp`, which marks the slots whose entries it has found in the log or written there. An
entry is replaced and never deleted, so each slot that is marked has an entry
(`Process.marks_stored`), whatever else the process does in between.
-/

namespace PaxosPayments.Paxos

@[simp] theorem Node.markCommitted_nil (n : Node) : n.markCommitted [] = n := by
  simp [Node.markCommitted]

def Node.isStored (n : Node) (s : ℕ) : Bool := (n.log.entries s).isSome

/-- What is stored stays stored. -/
theorem Node.Touched.isStored {n n' : Node} {stored : Option Entry} (h : n.Touched stored n')
    {s : ℕ} (hs : n.isStored s = true) : n'.isStored s = true := by
  unfold Node.isStored at hs ⊢
  rcases h.entries s with heq | ⟨e, -, -, heq⟩
  · rwa [heq]
  · rw [heq]
    rfl

/-- A section that writes at most `stored` leaves the log as it is, or accepts that entry. -/
theorem Node.Touched.entries_eq {n n' : Node} {stored : Option Entry} (h : n.Touched stored n') :
    n'.log.entries = n.log.entries ∨
      ∃ e, stored = some e ∧ n'.log.entries = (n.log.accept e).entries := by
  by_cases hsame : ∀ s, n'.log.entries s = n.log.entries s
  · exact .inl (funext hsame)
  · obtain ⟨s, hs⟩ := not_forall.mp hsame
    obtain ⟨e, hstored, rfl, he⟩ := (h.entries s).resolve_left hs
    refine .inr ⟨e, hstored, funext fun t => ?_⟩
    by_cases ht : t = e.slot
    · rw [ht, he, Log.accept_entries_self]
    · rw [Log.accept_entries_ne _ _ ht]
      -- only the slot of the one entry can change
      refine (h.entries t).resolve_right fun ⟨e', hstored', hslot, _⟩ => ht ?_
      obtain rfl := Option.some.inj (hstored.symm.trans hstored')
      exact hslot.symm

theorem StepDown.committed_next (d : StepDown) (n : Node) (disk : Bool) :
    (d.next n disk).1.committed = n.committed := by
  cases d with
  | role | compare => rfl
  | promise =>
    simp only [StepDown.next]
    split_ifs <;> rfl

namespace Replication

/-- The slots that the next section of `replicate` marks. -/
def marks (slot : ℕ) : Replication → List ℕ
  | mark => [slot]
  | _ => []

/-- From the write of its own entry on, the slot is stored. -/
def Stored (n : Node) (slot : ℕ) : Replication → Prop
  | collect _ | mark => n.isStored slot = true
  | _ => True

variable {cfg : Config} {slot : ℕ} {command : Command} {n n' : Node} {disk : Bool}
  {replies : List Message} {r : Replication}

theorem Stored.mono (hkeep : ∀ s, n.isStored s = true → n'.isStored s = true)
    (h : r.Stored n slot) : r.Stored n' slot := by
  cases r with
  | collect | mark => exact hkeep _ h
  | check | store | stepDown => exact trivial

theorem Stored.of_marks (h : r.Stored n slot) {s : ℕ} (hs : s ∈ r.marks slot) :
    n.isStored s = true := by
  cases r with
  | mark =>
    obtain rfl := List.mem_singleton.mp hs
    exact h
  | _ => cases hs

theorem Stored.next (h : r.Stored n slot) {r' : Replication}
    (hnext : r.next cfg slot command n disk replies = (n', .goOn r')) : r'.Stored n' slot := by
  cases r with
  | check =>
    simp only [Replication.next] at hnext
    split_ifs at hnext <;> cases hnext
    exact trivial
  | store b =>
    simp only [Replication.next] at hnext
    split_ifs at hnext <;> cases hnext
    simp [Stored, Node.isStored, Log.accept]
  | collect b =>
    simp only [Replication.next] at hnext
    split at hnext
    · cases hnext
      exact trivial
    · split_ifs at hnext <;> cases hnext
      exact h
  | stepDown d =>
    simp only [Replication.next] at hnext
    split at hnext <;> cases hnext
    exact trivial
  | mark => cases hnext

theorem committed_next (cfg : Config) (slot : ℕ) (command : Command) (n : Node) (disk : Bool)
    (replies : List Message) (r : Replication) :
    (r.next cfg slot command n disk replies).1.committed =
      (n.markCommitted (r.marks slot)).committed := by
  cases r with
  | check => simp [Replication.next, marks]
  | store b =>
    simp only [Replication.next, marks, Node.markCommitted_nil]
    split_ifs <;> rfl
  | collect b =>
    simp only [Replication.next, marks, Node.markCommitted_nil]
    split <;> rfl
  | stepDown d =>
    have hd := d.committed_next n disk
    simp only [Replication.next, marks, Node.markCommitted_nil]
    split <;> rename_i hnext <;> rw [hnext] at hd <;> exact hd
  | mark => rfl

end Replication

namespace Goroutine

/-- The slots that the next section of a goroutine marks. -/
def marks : Goroutine → List ℕ
  | marking slots => slots
  | recovery _ _ slot r => r.marks slot
  | _ => []

/-- `catchUp` has the entries of the slots that it collects, and a recovery that of its slot. -/
def Stored (n : Node) : Goroutine → Prop
  | comparing _ e slot _ slots | adopting _ e slot _ slots =>
    e.slot = slot ∧ ∀ s ∈ slots, n.isStored s = true
  | marking slots => ∀ s ∈ slots, n.isStored s = true
  | recovery _ _ slot r => r.Stored n slot
  | _ => True

variable {cfg : Config} {id : NodeID} {n n' : Node} {disk expired : Bool} {replies : List Message}
  {g : Goroutine}

theorem Stored.mono (hkeep : ∀ s, n.isStored s = true → n'.isStored s = true) (h : g.Stored n) :
    g.Stored n' := by
  cases g with
  | comparing | adopting => exact ⟨h.1, fun s hs => hkeep s (h.2 s hs)⟩
  | marking => exact fun s hs => hkeep s (h s hs)
  | recovery => exact Replication.Stored.mono hkeep h
  | _ => exact trivial

theorem Stored.of_marks (h : g.Stored n) {s : ℕ} (hs : s ∈ g.marks) : n.isStored s = true := by
  cases g with
  | marking => exact h s hs
  | recovery => exact Replication.Stored.of_marks h hs
  | _ => cases hs

theorem Stored.of_starts (h : g.starts = true) : g.Stored n := by
  cases g <;> first | exact trivial | cases h

theorem stored_learned {slots : List ℕ} (h : ∀ s ∈ slots, n.isStored s = true) :
    (learned slots).Stored n := by
  unfold learned
  split_ifs
  · exact trivial
  · exact h

theorem stored_learn {entries : List Entry} {slot last : ℕ} {slots : List ℕ}
    (h : ∀ s ∈ slots, n.isStored s = true) : (learn entries slot last slots).Stored n := by
  unfold learn
  split_ifs
  · split
    · rename_i e he
      exact ⟨by simpa using List.find?_some he, h⟩
    · exact stored_learned h
  · exact stored_learned h

/-- The loop of `catchUp` goes on after a slot that is stored now. -/
theorem stored_learn_next {entries : List Entry} {slot last : ℕ} {slots : List ℕ}
    (h : ∀ s ∈ slots, n.isStored s = true) (hslot : n.isStored slot = true) :
    (learn entries (uint64Succ slot) last (slots ++ [slot])).Stored n := by
  refine stored_learn fun s hs => ?_
  rcases List.mem_append.mp hs with hs | hs
  · exact h s hs
  · obtain rfl := List.mem_singleton.mp hs
    exact hslot

theorem Stored.next (h : g.Stored n) {g' : Goroutine}
    (hnext : g.next cfg id n disk expired replies = (n', some g')) : g'.Stored n' := by
  cases g with
  | fetching f =>
    simp only [Goroutine.next] at hnext
    split at hnext <;> cases hnext
    · split_ifs
      · exact stored_learn (by simp)
      · exact trivial
    · exact trivial
  | comparing entries e slot last slots =>
    obtain ⟨hslot, hslots⟩ := h
    simp only [Goroutine.next] at hnext
    cases hnext
    split_ifs with hsame
    · -- the entry that was compared is there
      refine stored_learn_next hslots ?_
      unfold Node.isStored
      cases hentry : n.log.entries slot with
      | some _ => rfl
      | none => simp [hentry] at hsame
    · exact ⟨hslot, hslots⟩
  | adopting entries e slot last slots =>
    obtain ⟨rfl, hslots⟩ := h
    simp only [Goroutine.next] at hnext
    split_ifs at hnext <;> cases hnext
    · have hn : n.Touched (some e) (n.adopt e) := .of_accept rfl rfl rfl
      exact stored_learn_next (fun s hs => hn.isStored (hslots s hs)) (by simp [Node.isStored])
    · exact stored_learned hslots
  | recovery best maxSlot slot r =>
    simp only [Goroutine.next] at hnext
    split at hnext
    · rename_i hr
      cases hnext
      exact Replication.Stored.next h hr
    · split_ifs at hnext <;> cases hnext
      exact trivial
  | stepDown d =>
    obtain ⟨-, hd⟩ := Prod.mk.inj hnext
    obtain ⟨d', -, rfl⟩ := Option.map_eq_some_iff.mp hd
    exact trivial
  | beating b =>
    simp only [Goroutine.next] at hnext
    split at hnext
    · cases hnext
      exact trivial
    · split_ifs at hnext <;> cases hnext
      exact trivial
  | follow | fetched => cases hnext
  | marking | choosing | starting | polling | beat | lost =>
    cases hnext
    exact trivial
  | counting | probing =>
    cases hnext
    split_ifs <;> exact trivial
  | _ =>
    simp only [Goroutine.next] at hnext
    split_ifs at hnext <;> cases hnext <;> exact trivial

theorem committed_next (cfg : Config) (id : NodeID) (n : Node) (disk expired : Bool)
    (replies : List Message) (g : Goroutine) :
    (g.next cfg id n disk expired replies).1.committed = (n.markCommitted g.marks).committed := by
  cases g with
  | marking slots => rfl
  | recovery best maxSlot slot r =>
    have hr := r.committed_next cfg slot (Node.recoveredCommand best slot) n disk replies
    simp only [Goroutine.next, marks]
    split <;> rename_i hnext <;> rw [hnext] at hr <;> exact hr
  | stepDown d =>
    simp only [Goroutine.next, marks, Node.markCommitted_nil]
    exact d.committed_next n disk
  | promising | accepting | storing | adopting | campaign | campaigning | lost =>
    simp only [Goroutine.next, marks, Node.markCommitted_nil]
    split_ifs <;> rfl
  | fetching | beating =>
    simp only [Goroutine.next, marks, Node.markCommitted_nil]
    split <;> rfl
  | _ =>
    simp only [marks, Node.markCommitted_nil]
    rfl

end Goroutine

namespace Process

variable {σ ρ : Type*} {cfg : Config} {id : NodeID} {apply : σ → ℕ → Command → σ × ρ}
  {p p' : Process σ ρ} {a : Action}

/-- The slots that a step marks. -/
def marks (p : Process σ ρ) : Action → List ℕ
  | .proceed k _ _ =>
    match p.calls[k]? with
    | some c =>
      match c.stage with
      | .replicating r => r.marks c.slot
      | _ => []
    | none => []
  | .advance gid _ _ _ =>
    match p.goroutines gid with
    | some g => g.marks
    | none => []
  | _ => []

/-- The calls and the goroutines have the entries of the slots that they are going to mark. -/
structure Stored (p : Process σ ρ) : Prop where
  calls : ∀ c ∈ p.calls, ∀ r, c.stage = .replicating r → r.Stored p.node c.slot
  goroutines : ∀ gid g, p.goroutines gid = some g → g.Stored p.node

namespace Stored

theorem init (log : Log) (machine : σ) : Stored (init log machine : Process σ ρ) where
  calls c hc := by cases hc
  goroutines gid g hg := by cases hg

theorem of_node (h : Stored p) {n : Node}
    (hkeep : ∀ s, p.node.isStored s = true → n.isStored s = true) :
    Stored { p with node := n } where
  calls c hc r hr := (h.calls c hc r hr).mono hkeep
  goroutines gid g hg := (h.goroutines gid g hg).mono hkeep

theorem setCall (h : Stored p) {k : ℕ} {c : Proposal ρ}
    (hc : ∀ r, c.stage = .replicating r → r.Stored p.node c.slot) : Stored (p.setCall k c) where
  calls d hd r hr := by
    rcases List.mem_or_eq_of_mem_set hd with hd | rfl
    · exact h.calls d hd r hr
    · exact hc r hr
  goroutines := h.goroutines

theorem setGoroutine (h : Stored p) {gid fresh : ℕ} {g : Option Goroutine}
    (hg : ∀ g', g = some g' → g'.Stored p.node) :
    Stored { p with goroutines := Function.update p.goroutines gid g, fresh := fresh } where
  calls := h.calls
  goroutines gid' g' hg' := by
    dsimp only at hg'
    by_cases hid : gid' = gid
    · rw [hid, Function.update_self] at hg'
      exact hg g' hg'
    · rw [Function.update_of_ne hid] at hg'
      exact h.goroutines gid' g' hg'

theorem proceed (h : Stored p) {k : ℕ} {c : Proposal ρ} {disk : Bool} {replies : List Message}
    (hc : c ∈ p.calls) (hs : p.proceed cfg k c disk replies = some p') : Stored p' := by
  unfold Process.proceed at hs
  cases hstage : c.stage with
  | replicating r =>
    have hn := r.touched cfg c.slot c.command p.node disk replies
    simp only [hstage] at hs
    split at hs <;> rename_i hnext <;> rw [hnext] at hn <;> obtain rfl := Option.some.inj hs
    · refine (h.of_node fun s => hn.isStored).setCall fun r' hr' => ?_
      cases hr'
      exact (h.calls c hc r hstage).next hnext
    · refine (h.of_node fun s => hn.isStored).setCall fun r' hr' => ?_
      dsimp only at hr'
      split_ifs at hr'
  | failed =>
    simp only [hstage] at hs
    obtain rfl := Option.some.inj hs
    have h' : Stored { p with results := Function.update p.results c.slot none } :=
      ⟨h.calls, h.goroutines⟩
    exact h'.setCall nofun
  | steppingDown d =>
    have hn := d.touched p.node disk
    simp only [hstage] at hs
    split at hs <;> rename_i hnext <;> rw [hnext] at hn <;> obtain rfl := Option.some.inj hs
    · exact (h.of_node fun s => hn.isStored).setCall nofun
    · exact (h.of_node fun s => hn.isStored).setCall nofun
  | waiting | returned =>
    simp only [hstage] at hs
    cases hs

/-- The apply loop writes no entry, and leaves the calls where they are. -/
theorem applyLoop (h : Stored p) : Stored (p.applyLoop apply) := by
  unfold Process.applyLoop
  cases happ : p.applier with
  | idle =>
    dsimp only
    split_ifs
    · exact ⟨h.calls, h.goroutines⟩
    · exact h
  | found slot =>
    dsimp only
    split <;> exact ⟨h.calls, h.goroutines⟩
  | got slot e =>
    dsimp only
    split_ifs <;> exact ⟨h.calls, h.goroutines⟩
  | done slot result => exact ⟨h.calls, h.goroutines⟩
  | sending k result =>
    refine ⟨fun c hc r hr => ?_, h.goroutines⟩
    rcases Table.mem_modify hc with hc | ⟨d, hd, rfl⟩
    · exact h.calls c hc r hr
    · exact h.calls d (List.mem_of_getElem? hd) r hr

/-- **Every step keeps this.** -/
theorem step (h : Stored p) (hs : p.step cfg id apply a = some p') : Stored p' := by
  cases Transition.of_step hs with
  | handOut =>
    refine ⟨fun c hc r hr => ?_, h.goroutines⟩
    rcases List.mem_append.mp hc with hc | hc
    · exact h.calls c hc r hr
    · obtain rfl := List.mem_singleton.mp hc
      cases hr
      exact trivial
  | refuse => exact h
  | proceed c hc hp => exact h.proceed (List.mem_of_getElem? hc) hp
  | receive | cancel => exact h.setCall nofun
  | start hstarts =>
    refine h.setGoroutine fun g' hg' => ?_
    obtain rfl := Option.some.inj hg'
    exact .of_starts hstarts
  | @advance gid disk expired replies g hg =>
    have hn := g.touched cfg id p.node disk expired replies
    refine (h.of_node fun s => hn.isStored).setGoroutine fun g' hg' => ?_
    exact (h.goroutines gid g hg).next (Prod.ext rfl hg')
  | apply => exact h.applyLoop

end Stored

/-- **What is marked is stored**, at every step that a process can take. -/
theorem marks_stored {log : Log} {machine : σ} {acts : List Action}
    (h : Run (step cfg id apply) always (init log machine) acts p) (a : Action) :
    ∀ s ∈ p.marks a, p.node.isStored s = true := by
  have hI : Stored p :=
    h.invariant (I := Stored) (fun _ _ _ hI _ hs => hI.step hs) (.init log machine)
  intro s hs
  cases a with
  | proceed k disk replies =>
    simp only [marks] at hs
    split at hs
    · rename_i c hc
      split at hs
      · rename_i r hr
        exact (hI.calls c (List.mem_of_getElem? hc) r hr).of_marks hs
      · cases hs
    · cases hs
  | advance gid disk expired replies =>
    simp only [marks] at hs
    split at hs
    · rename_i g hg
      exact (hI.goroutines gid g hg).of_marks hs
    · cases hs
  | _ => cases hs

/-- A step of another goroutine than the apply loop. -/
theorem touched_step (hs : p.step cfg id apply a = some p') (ha : a ≠ .apply) :
    ∃ stored, p.node.Touched stored p'.node := by
  cases Outcome.of_step hs with
  | handOut => exact ⟨none, .of_eq rfl rfl rfl⟩
  | idle | receive | cancel => exact ⟨none, .refl _⟩
  | proceed c hc n hn => exact ⟨_, hn⟩
  | conclude => exact ⟨none, .markCommitted _ _⟩
  | advance g hg n hn => exact ⟨_, hn⟩
  | apply => exact absurd rfl ha

theorem committed_proceed {k : ℕ} {c : Proposal ρ} {disk : Bool} {replies : List Message}
    (hc : p.calls[k]? = some c) (hs : p.proceed cfg k c disk replies = some p') :
    p'.node.committed = (p.node.markCommitted (p.marks (.proceed k disk replies))).committed := by
  unfold Process.proceed at hs
  simp only [marks, hc]
  cases hstage : c.stage with
  | replicating r =>
    have hr := r.committed_next cfg c.slot c.command p.node disk replies
    simp only [hstage] at hs ⊢
    split at hs <;> rename_i hnext <;> rw [hnext] at hr <;> obtain rfl := Option.some.inj hs <;>
      exact hr
  | failed =>
    simp only [hstage, Node.markCommitted_nil] at hs ⊢
    obtain rfl := Option.some.inj hs
    rfl
  | steppingDown d =>
    have hd := d.committed_next p.node disk
    simp only [hstage, Node.markCommitted_nil] at hs ⊢
    split at hs <;> rename_i hnext <;> rw [hnext] at hd <;> obtain rfl := Option.some.inj hs <;>
      exact hd
  | waiting | returned =>
    simp only [hstage] at hs
    cases hs

/-- A step marks the slots of `marks` and no others. -/
theorem committed_step (hs : p.step cfg id apply a = some p') (ha : a ≠ .apply) :
    p'.node.committed = (p.node.markCommitted (p.marks a)).committed := by
  cases Transition.of_step hs with
  | refuse | start => simp only [marks, Node.markCommitted_nil]
  | handOut | receive | cancel =>
    simp only [marks, Node.markCommitted_nil]
    rfl
  | proceed c hc hp => exact committed_proceed hc hp
  | advance g hg =>
    simp only [marks, hg]
    exact g.committed_next cfg id p.node _ _ _
  | apply => exact absurd rfl ha

end Process

end PaxosPayments.Paxos
