import PaxosPayments.ControlPlane.Locks

/-!
# Decisions of a shard

A transaction is known to a shard by its name, and commands for one name may come in any order, any
number of times and with any details. `txSteps` picks them out of a sequence, each with the machine
it is applied to. Once the shard has decided, none of them changes a balance any more (`Silent`);
before that a prepare may take a lock, and of the commands that follow at most one settles it
(`Settles`).
-/

namespace PaxosPayments.ControlPlane

namespace Machine

/-- The command belongs to the transaction. -/
def concerns (tx : String) (c : Command) : Bool := c.op.ofTx && c.tx = tx

/-- The commands of a transaction in a sequence, each with the machine before it. -/
def txSteps (tx : String) : Machine → List Command → List (Machine × Command)
  | _, [] => []
  | m, c :: cs =>
    if concerns tx c then (m, c) :: txSteps tx (m.applyLocked c).1 cs
    else txSteps tx (m.applyLocked c).1 cs

/-- The command leaves all balances as they are. -/
def Silent (s : Machine × Command) : Prop := (s.1.applyLocked s.2).1.balances = s.1.balances

/-- A commit that adds the delta of the prepare `p` to the balance of its account. -/
def Settles (p : Command) (s : Machine × Command) : Prop :=
  s.2.op = .commit ∧ ∃ v, s.1.balances.lookup p.key = some v ∧
    (s.1.applyLocked s.2).1.balances = s.1.balances.insert p.key (v + p.amount)

/-- One of the steps settles `p`, and the others leave the balances as they are. -/
def SettlesOnce (p : Command) (steps : List (Machine × Command)) : Prop :=
  ∃ pre s post, steps = pre ++ s :: post ∧ (∀ x ∈ pre ++ post, Silent x) ∧ Settles p s

/-- The steps leave the balances as they are, or one of them settles a prepare that was answered
with OK before and the others leave the balances as they are. -/
def AppliesOnce (steps : List (Machine × Command)) : Prop :=
  (∀ x ∈ steps, Silent x) ∨ ∃ p pre s post, steps = pre ++ s :: post ∧
    (∃ x ∈ pre, x.2 = p ∧ p.op = .prepare ∧ (x.1.applyLocked p).2.code = .ok) ∧
    (∀ x ∈ pre ++ post, Silent x) ∧ Settles p s

variable {m m' : Machine} {c p : Command} {r : Result} {tx : String} {cs : List Command}

theorem concerns_iff : concerns tx c = true ↔ c.op.ofTx = true ∧ c.tx = tx := by
  simp [concerns]

theorem SettlesOnce.cons {steps : List (Machine × Command)} {x : Machine × Command} (hx : Silent x)
    (h : SettlesOnce p steps) : SettlesOnce p (x :: steps) := by
  obtain ⟨pre, s, post, rfl, hsilent, hs⟩ := h
  exact ⟨x :: pre, s, post, rfl, List.forall_mem_cons.mpr ⟨hx, hsilent⟩, hs⟩

theorem AppliesOnce.cons {steps : List (Machine × Command)} {x : Machine × Command} (hx : Silent x)
    (h : AppliesOnce steps) : AppliesOnce (x :: steps) := by
  rcases h with h | ⟨p, pre, s, post, rfl, ⟨y, hy, hp⟩, hsilent, hs⟩
  · exact Or.inl (List.forall_mem_cons.mpr ⟨hx, h⟩)
  · exact Or.inr ⟨p, x :: pre, s, post, rfl, ⟨y, List.mem_cons_of_mem _ hy, hp⟩,
      List.forall_mem_cons.mpr ⟨hx, hsilent⟩, hs⟩

/-- No transaction is both prepared and decided, and a decision is to commit or to abort. -/
structure Decisive (m : Machine) : Prop where
  exclusive : m.Exclusive
  decision : ∀ tx op, m.decided.lookup tx = some op → op = .commit ∨ op = .abort

theorem Decisive.prepared_eq_none (h : m.Decisive) {op : Op} (hd : m.decided.lookup tx = some op) :
    m.prepared.lookup tx = none := by
  by_contra hp
  exact absurd ((h.exclusive tx hp).symm.trans hd) nofun

end Machine

namespace Effect

variable {m m' : Machine} {c p : Command} {r : Result} {tx : String} {op : Op}

/-- **A decision is final.** -/
theorem decided (h : Effect m c m' r) (hm : m.Decisive) (hd : m.decided.lookup tx = some op) :
    m'.decided.lookup tx = some op := by
  by_cases hne : c.op.ofTx = true → c.tx ≠ tx
  · rw [(h.lookup_of_ne hne).2, hd]
  push Not at hne
  obtain ⟨-, rfl⟩ := hne
  have hprepared := hm.prepared_eq_none hd
  cases h with
  | refuse | again | put | transfer => exact hd
  | prepare _ _ hopen => exact absurd (hopen.symm.trans hd) nofun
  | commit _ p hp => exact absurd (hprepared.symm.trans hp) nofun
  | abort =>
    unfold Machine.abortLocked
    rw [hprepared]
    dsimp only [Option.elim]
    rcases hm.decision c.tx op hd with rfl | rfl
    · rw [if_pos hd, hd]
    · rw [if_neg (by simp [hd])]
      exact Finmap.lookup_insert _

theorem decisive (h : Effect m c m' r) (hm : m.Decisive) : m'.Decisive := by
  refine ⟨h.exclusive hm.exclusive, fun tx op hd => ?_⟩
  by_cases hne : c.op.ofTx = true → c.tx ≠ tx
  · exact hm.decision tx op ((h.lookup_of_ne hne).2 ▸ hd)
  push Not at hne
  obtain ⟨-, rfl⟩ := hne
  cases h with
  | refuse | again | put | transfer | prepare => exact hm.decision c.tx op hd
  | commit =>
    have heq : some .commit = some op := (Finmap.lookup_insert _).symm.trans hd
    exact Or.inl (Option.some.inj heq).symm
  | abort =>
    unfold Machine.abortLocked at hd
    dsimp only at hd
    split_ifs at hd with hcommit
    · exact Or.inl (Option.some.inj (hcommit.symm.trans hd)).symm
    · have heq : some .abort = some op := (Finmap.lookup_insert _).symm.trans hd
      exact Or.inr (Option.some.inj heq).symm

/-- A prepare of a transaction that is decided is refused. -/
theorem code_prepare (h : Effect m c m' r) (hm : m.Decisive) (hop : c.op = .prepare)
    (hd : m.decided.lookup c.tx = some op) : r.code ≠ .ok := by
  cases h with
  | refuse r hr => exact hr
  | again r hr hc =>
    simp only [hop, reduceCtorEq, true_and, false_and, or_false, false_or] at hc
    exact absurd (hc.symm.trans (hm.prepared_eq_none hd)) nofun
  | prepare _ _ hopen => exact absurd (hopen.symm.trans hd) nofun
  | put h | transfer h | commit h | abort h => simp [hop] at h

/-- A commit of a transaction that is decided is answered with OK only if it was committed. -/
theorem code_commit (h : Effect m c m' r) (hm : m.Decisive) (hop : c.op = .commit)
    (hd : m.decided.lookup c.tx = some op) (hne : op ≠ .commit) : r.code ≠ .ok := by
  cases h with
  | refuse r hr => exact hr
  | again r hr hc =>
    simp only [hop, reduceCtorEq, true_and, false_and, false_or, hd, Option.some.injEq] at hc
    exact absurd hc hne
  | commit _ p hp => exact absurd (hp.symm.trans (hm.prepared_eq_none hd)) nofun
  | put h | transfer h | prepare h | abort h => simp [hop] at h

/-- A command of a transaction that is decided changes no balance. -/
theorem silent_of_decided (h : Effect m c m' r) (hm : m.Decisive) (hop : c.op.ofTx = true)
    (hd : m.decided.lookup c.tx = some op) : m'.balances = m.balances := by
  cases h with
  | refuse | again | prepare => rfl
  | commit _ p hp => exact absurd (hp.symm.trans (hm.prepared_eq_none hd)) nofun
  | abort => exact Machine.balances_abortLocked m c.tx
  | put h | transfer h => simp [h, Op.ofTx] at hop

/-- A command of a transaction that is prepared leaves it prepared, or settles it, or aborts it. -/
theorem of_prepared (h : Effect m c m' r) (hop : c.op.ofTx = true)
    (hp : m.prepared.lookup c.tx = some p) :
    m'.balances = m.balances ∧
        (m'.prepared.lookup c.tx = some p ∨ m'.decided.lookup c.tx = some .abort ∨
          m'.decided.lookup c.tx = some .commit) ∨
      c.op = .commit ∧ m'.decided.lookup c.tx = some .commit ∧
        m'.balances = m.balances.insert p.key (m.balance p.key + p.amount) := by
  cases h with
  | refuse | again => exact Or.inl ⟨rfl, Or.inl hp⟩
  | prepare _ hnew => exact absurd (hnew.symm.trans hp) nofun
  | commit hcommit q hq =>
    obtain rfl : q = p := Option.some.inj (hq.symm.trans hp)
    exact Or.inr ⟨hcommit, Finmap.lookup_insert _, rfl⟩
  | abort =>
    refine Or.inl ⟨Machine.balances_abortLocked m c.tx, Or.inr ?_⟩
    unfold Machine.abortLocked
    dsimp only
    split_ifs with hcommit
    · exact Or.inr hcommit
    · exact Or.inl (Finmap.lookup_insert _)
  | put h | transfer h => simp [h, Op.ofTx] at hop

/-- A command of a transaction that the machine does not know leaves it so, or prepares it, or
aborts it. -/
theorem of_idle (h : Effect m c m' r) (hop : c.op.ofTx = true)
    (hp : m.prepared.lookup c.tx = none) (hd : m.decided.lookup c.tx = none) :
    m'.balances = m.balances ∧
      (m' = m ∨ c.op = .prepare ∧ r.code = .ok ∧ m'.prepared.lookup c.tx = some c ∨
        m'.decided.lookup c.tx = some .abort) := by
  cases h with
  | refuse | again => exact ⟨rfl, Or.inl rfl⟩
  | prepare hprepare => exact ⟨rfl, Or.inr (Or.inl ⟨hprepare, rfl, Finmap.lookup_insert _⟩)⟩
  | commit _ q hq => exact absurd (hq.symm.trans hp) nofun
  | abort =>
    refine ⟨Machine.balances_abortLocked m c.tx, Or.inr (Or.inr ?_)⟩
    unfold Machine.abortLocked
    rw [hp]
    dsimp only [Option.elim]
    rw [if_neg (by simp [hd])]
    exact Finmap.lookup_insert _
  | put h | transfer h => simp [h, Op.ofTx] at hop

end Effect

namespace Machine

variable {m m' : Machine} {c p : Command} {tx : String} {op : Op}

theorem Decisive.new (maxKeys : ℕ) : Decisive (Machine.new maxKeys ∅) :=
  ⟨fun _ _ => rfl, fun tx op h => by simp [Machine.new] at h⟩

theorem Decisive.applyLocked (h : m.Decisive) (c : Command) : (m.applyLocked c).1.Decisive :=
  (effect m c).decisive h

theorem Decisive.applyAll (h : m.Decisive) (cs : List Command) : (m.applyAll cs).Decisive :=
  applyAll_invariant h fun _ c _ hm => hm.applyLocked c

/-- A decision stays what it is. -/
theorem decided_applyAll (hm : m.Decisive) (hd : m.decided.lookup tx = some op)
    (cs : List Command) : (m.applyAll cs).decided.lookup tx = some op := by
  have hboth : (m.applyAll cs).Decisive ∧ (m.applyAll cs).decided.lookup tx = some op :=
    applyAll_invariant (I := fun m => m.Decisive ∧ m.decided.lookup tx = some op) ⟨hm, hd⟩
      fun m c _ h => ⟨h.1.applyLocked c, (effect m c).decided h.1 h.2⟩
  exact hboth.2

/-- A command that does not belong to a transaction leaves it where it is. -/
theorem lookup_of_not_concerns (m : Machine) (hc : concerns tx c ≠ true) :
    (m.applyLocked c).1.prepared.lookup tx = m.prepared.lookup tx ∧
      (m.applyLocked c).1.decided.lookup tx = m.decided.lookup tx := by
  refine (effect m c).lookup_of_ne fun hop htx => hc ?_
  exact concerns_iff.mpr ⟨hop, htx⟩

/-- After the decision all is silent. -/
theorem silent_txSteps (hm : m.Decisive) (hd : m.decided.lookup tx = some op) (cs : List Command) :
    ∀ x ∈ txSteps tx m cs, Silent x := by
  induction cs generalizing m with
  | nil => exact fun x hx => nomatch hx
  | cons c cs ih =>
    have hrest := ih (hm.applyLocked c) ((effect m c).decided hm hd)
    unfold txSteps
    split_ifs with hc
    · obtain ⟨hop, rfl⟩ := concerns_iff.mp hc
      exact List.forall_mem_cons.mpr ⟨(effect m c).silent_of_decided hm hop hd, hrest⟩
    · exact hrest

/-- What is prepared is settled at most once. -/
theorem settlesOnce_txSteps (hcoherent : m.Coherent) (hm : m.Decisive)
    (hp : m.prepared.lookup tx = some p) (cs : List Command) :
    (∀ x ∈ txSteps tx m cs, Silent x) ∨ SettlesOnce p (txSteps tx m cs) := by
  induction cs generalizing m with
  | nil => exact Or.inl fun x hx => nomatch hx
  | cons c cs ih =>
    have hcoherent' := hcoherent.applyLocked c
    have hm' := hm.applyLocked c
    unfold txSteps
    split_ifs with hc
    · obtain ⟨hop, rfl⟩ := concerns_iff.mp hc
      rcases (effect m c).of_prepared hop hp with ⟨hsame, hnext⟩ | ⟨hcommit, hdecided, hbalances⟩
      · have hsilent : Silent (m, c) := hsame
        rcases hnext with hprepared | hdecided | hdecided
        · rcases ih hcoherent' hm' hprepared with hrest | hrest
          · exact Or.inl (List.forall_mem_cons.mpr ⟨hsilent, hrest⟩)
          · exact Or.inr (hrest.cons hsilent)
        · have hrest := silent_txSteps hm' hdecided cs
          exact Or.inl (List.forall_mem_cons.mpr ⟨hsilent, hrest⟩)
        · have hrest := silent_txSteps hm' hdecided cs
          exact Or.inl (List.forall_mem_cons.mpr ⟨hsilent, hrest⟩)
      · obtain ⟨v, hv⟩ := Finmap.mem_iff.mp (hcoherent.mem_of_prepared hp)
        rw [balance, hv, Option.getD_some] at hbalances
        exact Or.inr ⟨[], (m, c), _, rfl, silent_txSteps hm' hdecided cs, hcommit, v, hv, hbalances⟩
    · exact ih hcoherent' hm' ((lookup_of_not_concerns m hc).1.trans hp)

/-- **A transaction is applied at most once.** -/
theorem appliesOnce_txSteps (hcoherent : m.Coherent) (hm : m.Decisive)
    (hp : m.prepared.lookup tx = none) (hd : m.decided.lookup tx = none) (cs : List Command) :
    AppliesOnce (txSteps tx m cs) := by
  induction cs generalizing m with
  | nil => exact Or.inl fun x hx => nomatch hx
  | cons c cs ih =>
    have hcoherent' := hcoherent.applyLocked c
    have hm' := hm.applyLocked c
    unfold txSteps
    split_ifs with hc
    · obtain ⟨hop, rfl⟩ := concerns_iff.mp hc
      obtain ⟨hsame, hnext⟩ := (effect m c).of_idle hop hp hd
      have hsilent : Silent (m, c) := hsame
      rcases hnext with hidle | ⟨hprepare, hok, hprepared⟩ | hdecided
      · refine (ih hcoherent' hm' ?_ ?_).cons hsilent
        · rw [hidle, hp]
        · rw [hidle, hd]
      · rcases settlesOnce_txSteps hcoherent' hm' hprepared cs with hrest | hrest
        · exact Or.inl (List.forall_mem_cons.mpr ⟨hsilent, hrest⟩)
        · obtain ⟨pre, s, post, heq, hothers, hs⟩ := hrest
          refine Or.inr ⟨c, (m, c) :: pre, s, post, by rw [heq]; rfl, ?_, ?_, hs⟩
          · exact ⟨(m, c), List.mem_cons_self, rfl, hprepare, hok⟩
          · exact List.forall_mem_cons.mpr ⟨hsilent, hothers⟩
      · have hrest := silent_txSteps hm' hdecided cs
        exact Or.inl (List.forall_mem_cons.mpr ⟨hsilent, hrest⟩)
    · obtain ⟨hp', hd'⟩ := lookup_of_not_concerns m hc
      exact ih hcoherent' hm' (hp'.trans hp) (hd'.trans hd)

/-- The decision after an abort. -/
theorem decided_of_abort (m : Machine) (hop : c.op = .abort) (htx : c.tx = tx) :
    (m.applyLocked c).1.decided.lookup tx =
      some (if m.decided.lookup tx = some .commit then .commit else .abort) := by
  have heq : (m.applyLocked c).1 = m.abortLocked tx := by rw [applyLocked, hop, htx]
  rw [heq]
  cases hp : m.prepared.lookup tx with
  | none =>
    unfold abortLocked
    rw [hp]
    dsimp only [Option.elim]
    split_ifs with hcommit
    · exact hcommit
    · exact Finmap.lookup_insert _
  | some p =>
    unfold abortLocked
    rw [hp]
    dsimp only [Option.elim, release]
    split_ifs with hcommit
    · exact hcommit
    · exact Finmap.lookup_insert _

/-- A commit of a transaction that is committed changes nothing. -/
theorem applyLocked_commit_again (hop : c.op = .commit) (htx : c.tx = tx)
    (hd : m.decided.lookup tx = some .commit) : m.applyLocked c = (m, .success 0) := by
  rw [applyLocked, hop, htx]
  exact if_pos hd

/-- **Decisions are final and applied at most once.** An abort ends a transaction that is not
committed; one that is committed stays so, and its commit is answered with OK again. -/
theorem decisions_final (maxKeys : ℕ) (tx : String) (earlier later : List Command) :
    let m := (new maxKeys ∅).applyAll earlier
    (∀ op, m.decided.lookup tx = some op → (m.applyAll later).decided.lookup tx = some op) ∧
      (m.prepared.lookup tx = none ∨ m.decided.lookup tx = none) ∧
      AppliesOnce (txSteps tx (new maxKeys ∅) earlier) ∧
      ∀ a, a.op = .abort → a.tx = tx →
        let m' := (m.applyLocked a).1.applyAll later
        (∀ c, c.op = .prepare → c.tx = tx → (m'.applyLocked c).2.code ≠ .ok) ∧
          (∀ c, c.op = .commit → c.tx = tx → m.decided.lookup tx ≠ some .commit →
            (m'.applyLocked c).2.code ≠ .ok) ∧
          ∀ c, c.op = .commit → c.tx = tx → m.decided.lookup tx = some .commit →
            m'.applyLocked c = (m', .success 0) := by
  intro m
  have hm : m.Decisive := (Decisive.new maxKeys).applyAll earlier
  refine ⟨fun op hd => decided_applyAll hm hd later, ?_, ?_, fun a hop htx => ?_⟩
  · by_cases hp : m.prepared.lookup tx = none
    · exact Or.inl hp
    · exact Or.inr (hm.exclusive tx hp)
  · exact appliesOnce_txSteps (Coherent.new maxKeys) (Decisive.new maxKeys) rfl rfl earlier
  · intro m'
    have hm' : m'.Decisive := (hm.applyLocked a).applyAll later
    have hd : m'.decided.lookup tx =
        some (if m.decided.lookup tx = some .commit then .commit else .abort) :=
      decided_applyAll (hm.applyLocked a) (decided_of_abort m hop htx) later
    refine ⟨fun c hc hctx => ?_, fun c hc hctx hne => ?_, fun c hc hctx hcommit => ?_⟩
    · subst hctx
      exact (effect m' c).code_prepare hm' hc hd
    · subst hctx
      rw [if_neg hne] at hd
      exact (effect m' c).code_commit hm' hc hd nofun
    · rw [if_pos hcommit] at hd
      exact applyLocked_commit_again hc hctx hd

/-- A transaction is committed and then aborted; a commit of it is still answered with OK. -/
theorem commit_after_abort :
    let m := (new 0 ∅).applyAll [⟨.put, "a", "", 100, ""⟩, debitThirty, ⟨.commit, "", "", 0, "tx1"⟩]
    let m' := (m.applyLocked ⟨.abort, "", "", 0, "tx1"⟩).1
    (m.applyLocked ⟨.abort, "", "", 0, "tx1"⟩).2.code = .ok ∧
      (m'.applyLocked ⟨.commit, "", "", 0, "tx1"⟩).2.code = .ok := by
  decide +kernel

end Machine

end PaxosPayments.ControlPlane
