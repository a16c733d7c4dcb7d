import PaxosPayments.ControlPlane.Overflow
import PaxosPayments.ControlPlane.Coordinator

/-!
# Transfers in one round and in two phases

`Engine.Transfer` moves funds with one command when both accounts live on one shard, and with
`Coordinator.Transfer` otherwise. `Transfer.execute` is such a call when every request is executed
and answered at once; it is one of the runs of the network (`execute_run`).

The two ways agree, except where the check of a prepare wraps: a debit that would fall below the
lowest balance is refused in one round and goes through in two phases (`agrees_iff`).
-/

namespace PaxosPayments.ControlPlane

variable {n : ℕ}

namespace Transfer

variable (t : Transfer n)

/-- A request to the participant of one half, executed and answered. -/
def call (shards : Fin n → Machine) (op : Op) (side : Side) : (Fin n → Machine) × Option String :=
  let (m, r) := (shards (t.shard side)).applyLocked (t.command op side)
  (Function.update shards (t.shard side) m, r.err)

/-- The decision is ABORT, and goes to both participants. -/
def abortBoth (shards : Fin n → Machine) : Fin n → Machine :=
  (t.call (t.call shards .abort .source).1 .abort .target).1

/-- `Coordinator.Transfer`, when every request is executed and answered. -/
def execute (shards : Fin n → Machine) : (Fin n → Machine) × Ending :=
  match t.call shards .prepare .source with
  | (shards, some err) =>
    (t.abortBoth shards, .refused (participantName t.source ++ " voted NO: " ++ err))
  | (shards, none) =>
    match t.call shards .prepare .target with
    | (shards, some err) =>
      (t.abortBoth shards, .refused (participantName t.target ++ " voted NO: " ++ err))
    | (shards, none) =>
      match t.call shards .commit .source with
      | (shards, err) =>
        match t.call shards .commit .target with
        | (shards, err') =>
          let undelivered := (if err = none then [] else [Side.source]) ++
            if err' = none then [] else [Side.target]
          (shards, if undelivered = [] then .committed else .inDoubt undelivered)

/-- The command of the same transfer on one shard. -/
def oneRound : Command := ⟨.transfer, t.fromKey, t.toKey, t.amount, ""⟩

end Transfer

/-! ## The synchronous call is a run of the network -/

namespace Network

variable {shardFor : String → Fin n} {net : Network n} {j : ℕ} {c : Call n} {fs : List (Flight n)}

/-- Call `j` waits for its request, which was the last to be sent. -/
structure Waiting (net : Network n) (j : ℕ) (c : Call n) (fs : List (Flight n)) : Prop where
  call : net.calls[j]? = some c
  flights : net.flights = fs ++ (requestOf j c).toList
  incarnation : c.incarnation = net.incarnation

/-- The call goes on from where it stands to its end, when every request is executed at once. -/
def Returns (shardFor : String → Fin n) (t : Transfer n) (stage : Stage)
    (shards shards' : Fin n → Machine) (ending : Ending) : Prop :=
  ∀ (net : Network n) (j : ℕ) (c : Call n) (fs : List (Flight n)), net.Waiting j c fs →
    c.transfer = t → c.stage = stage → net.shards = shards →
    ∃ acts net' c', Run (step shardFor) always net acts net' ∧ net'.shards = shards' ∧
      net'.calls[j]? = some c' ∧ c'.transfer = t ∧ c'.stage = .returned ending

theorem Returns.returned {t : Transfer n} {shards : Fin n → Machine} {ending : Ending} :
    Returns shardFor t (.returned ending) shards shards ending := by
  intro net j c fs hw ht hstage hshards
  exact ⟨[], net, c, .nil net, hshards, hw.call, ht, hstage⟩

/-- One request, executed and answered. -/
theorem Returns.of_call {t : Transfer n} {stage : Stage} {op : Op} {side : Side}
    {shards shards' : Fin n → Machine} {ending : Ending} (hreq : stage.request = some (op, side))
    (h : Returns shardFor t (stage.next t (t.call shards op side).2) (t.call shards op side).1
      shards' ending) : Returns shardFor t stage shards shards' ending := by
  rintro net j c fs hw rfl rfl rfl
  let f : Flight n := ⟨some j, .call c.turn, c.transfer.shard side, c.transfer.command op side⟩
  let err := (c.transfer.call net.shards op side).2
  let executed := (net.dropFlight fs.length).execute f
  let answered : Call n := { c with answer := some err }
  let stage := c.stage.next c.transfer err
  have hflights : net.flights = fs ++ [f] := by
    rw [hw.flights, requestOf, hreq]
    rfl
  have hf : net.flights[fs.length]? = some f := by
    rw [hflights, List.getElem?_concat_length]
  have hdrop : net.flights.eraseIdx fs.length = fs := by
    rw [hflights, List.eraseIdx_append_of_length_le le_rfl]
    simp
  have hexecute : net.step shardFor (.execute fs.length) = some executed := by
    simp only [step, hf]
    rfl
  have hcall : executed.calls[j]? = some answered := by
    simp [executed, execute, dropFlight, f, hw.call, receive, answered, err, Transfer.call]
  have hanswer : executed.step shardFor (.answer j) = some (executed.enter j answered stage) := by
    have hincarnation : answered.incarnation = executed.incarnation := hw.incarnation
    simp only [step, hcall, if_pos hincarnation]
    simp only [answered, hreq]
    rfl
  obtain ⟨acts, net', c', hrun, hend⟩ := h (executed.enter j answered stage) j
    { answered with stage := stage, turn := c.turn + 1, answer := none } fs
    ⟨(getElem?_enter hcall stage j).trans (if_pos rfl), by
      simp [enter, executed, execute, dropFlight, hdrop, answered],
      hw.incarnation⟩ rfl rfl rfl
  exact ⟨.execute fs.length :: .answer j :: acts, net', c',
    .cons rfl hexecute (.cons rfl hanswer hrun), hend⟩

/-- The decision ABORT. -/
theorem Returns.of_abort {t : Transfer n} {shards : Fin n → Machine} {refusal : String} :
    Returns shardFor t (.abort .source refusal) shards (t.abortBoth shards) (.refused refusal) :=
  .of_call rfl (.of_call rfl .returned)

theorem execute_returns (shardFor : String → Fin n) (t : Transfer n) (shards : Fin n → Machine) :
    Returns shardFor t (.prepare .source) shards (t.execute shards).1 (t.execute shards).2 := by
  unfold Transfer.execute
  refine .of_call rfl ?_
  generalize t.call shards .prepare .source = q₁
  obtain ⟨shards₁, answer₁⟩ := q₁
  cases answer₁ with
  | some err => exact .of_abort
  | none =>
  refine .of_call rfl ?_
  simp only
  generalize t.call shards₁ .prepare .target = q₂
  obtain ⟨shards₂, answer₂⟩ := q₂
  cases answer₂ with
  | some err => exact .of_abort
  | none =>
  refine .of_call rfl ?_
  simp only
  generalize t.call shards₂ .commit .source = q₃
  obtain ⟨shards₃, answer₃⟩ := q₃
  cases answer₃ with
  | some err =>
    refine .of_call rfl ?_
    simp only
    generalize t.call shards₃ .commit .target = q₄
    obtain ⟨shards₄, answer₄⟩ := q₄
    cases answer₄ <;> exact .returned
  | none =>
    refine .of_call rfl ?_
    simp only
    generalize t.call shards₃ .commit .target = q₄
    obtain ⟨shards₄, answer₄⟩ := q₄
    cases answer₄ <;> exact .returned

/-- **The synchronous call is a run of the network**, in which every request is executed at once and
answered. -/
theorem execute_run (net : Network n) {fromKey toKey : String} {amount : BitVec 64}
    (hne : shardFor fromKey ≠ shardFor toKey) :
    let t : Transfer n :=
      ⟨net.nextTx, shardFor fromKey, fromKey, shardFor toKey, toKey, amount⟩
    ∃ acts net' c, Run (step shardFor) always net (.transfer fromKey toKey amount :: acts) net' ∧
      net'.shards = (t.execute net.shards).1 ∧ net'.calls[net.calls.length]? = some c ∧
      c.transfer = t ∧ c.stage = .returned (t.execute net.shards).2 := by
  intro t
  have hbegin : net.step shardFor (.transfer fromKey toKey amount) = some (net.begin t) :=
    if_neg hne
  have hcall := (getElem?_begin net t net.calls.length).trans (if_pos rfl)
  obtain ⟨acts, net', c, hrun, hend⟩ := execute_returns shardFor t net.shards (net.begin t)
    net.calls.length _ net.flights ⟨hcall, rfl, rfl⟩ rfl rfl rfl
  exact ⟨acts, net', c, .cons rfl hbegin hrun, hend⟩

end Network

/-! ## Both ways -/

namespace Machine

variable {m : Machine} {c : Command} {tx : String}

/-- The account of a prepare is free, and its check finds enough there. -/
def accepts (m : Machine) (c : Command) : Prop :=
  m.locks.lookup c.key = none ∧ (c.amount.slt 0 && (m.balance c.key + c.amount).slt 0) = false

theorem checkLocked_singleton (hmem : c.key ∈ m.balances) :
    m.checkLocked [c.key] = none ↔ m.locks.lookup c.key = none := by
  rw [checkLocked_eq_none_iff]
  simp [hmem]

/-- A prepare that starts a transaction. -/
theorem prepareLocked_of_accepts (hnew : m.prepared.lookup c.tx = none)
    (hopen : m.decided.lookup c.tx = none) (hmem : c.key ∈ m.balances) (h : m.accepts c) :
    m.prepareLocked c = (m.hold c, .success (m.balance c.key)) := by
  obtain ⟨hfree, hfunds⟩ := h
  simp only [prepareLocked, hnew, hopen, (checkLocked_singleton hmem).mpr hfree]
  rw [if_neg (by simp only [hfunds, Bool.false_eq_true, not_false_iff])]

theorem prepareLocked_of_not_accepts (hop : c.op = .prepare)
    (hnew : m.prepared.lookup c.tx = none) (hmem : c.key ∈ m.balances) (h : ¬m.accepts c) :
    (m.prepareLocked c).1 = m ∧ (m.prepareLocked c).2.err ≠ none := by
  have heffect := effect_prepareLocked m hop
  generalize (m.prepareLocked c).1 = m' at heffect ⊢
  generalize (m.prepareLocked c).2 = r at heffect ⊢
  rw [ne_eq, Result.err_eq_none_iff]
  cases heffect with
  | refuse _ hr => exact ⟨rfl, hr⟩
  | again _ _ hc => simp [hop, hnew] at hc
  | prepare _ _ _ hfree hfunds =>
    exact absurd ⟨(checkLocked_singleton hmem).mp hfree, hfunds⟩ h
  | put h | transfer h | commit h | abort h => simp [hop] at h

/-- The commit of an account that has just been held. -/
theorem commitLocked_hold (hopen : m.decided.lookup c.tx = none) :
    ((m.hold c).commitLocked c.tx).1.balances =
        m.balances.insert c.key (m.balance c.key + c.amount) ∧
      ((m.hold c).commitLocked c.tx).2.err = none := by
  have hnot : (m.hold c).decided.lookup c.tx ≠ some .commit := by
    simp [hold, hopen]
  have hheld : (m.hold c).prepared.lookup c.tx = some c := Finmap.lookup_insert _
  rw [commitLocked, if_neg hnot, hheld]
  exact ⟨rfl, rfl⟩

/-- An abort lets go of an account that has just been held, and of no other. -/
theorem locks_abort_hold (hfree : m.locks.lookup c.key = none) (k : String) :
    ((m.hold c).abortLocked c.tx).locks.lookup k = m.locks.lookup k := by
  have hlocks : ((m.hold c).abortLocked c.tx).locks = (m.locks.insert c.key c.tx).erase c.key := by
    unfold abortLocked
    simp only [hold, Finmap.lookup_insert, Option.elim, release]
    split_ifs <;> rfl
  rw [hlocks]
  by_cases hk : k = c.key
  · rw [hk, Finmap.lookup_erase, hfree]
  · rw [Finmap.lookup_erase_ne hk, Finmap.lookup_insert_of_ne _ hk]

theorem locks_abort_of_new (hnew : m.prepared.lookup tx = none) :
    (m.abortLocked tx).locks = m.locks := by
  unfold abortLocked
  simp only [hnew, Option.elim]
  split_ifs <;> rfl

end Machine

namespace Transfer

variable {t : Transfer n} {m : Machine} {shards : Fin n → Machine} {side other : Side}

theorem call_shard (t : Transfer n) (shards : Fin n → Machine) (op : Op) (side : Side) :
    (t.call shards op side).1 (t.shard side) =
      ((shards (t.shard side)).applyLocked (t.command op side)).1 :=
  Function.update_self ..

theorem call_shard_of_ne (shards : Fin n → Machine) (op : Op) (side other : Side)
    (hne : t.shard other ≠ t.shard side) :
    (t.call shards op side).1 (t.shard other) = shards (t.shard other) :=
  Function.update_of_ne hne ..

theorem abortBoth_shard (hne : t.source ≠ t.target) (shards : Fin n → Machine) (side : Side) :
    t.abortBoth shards (t.shard side) = (shards (t.shard side)).abortLocked t.tx := by
  unfold abortBoth
  cases side with
  | source =>
    rw [call_shard_of_ne _ _ .target .source hne, call_shard]
    rfl
  | target =>
    rw [call_shard, call_shard_of_ne _ _ .source .target hne.symm]
    rfl

/-- The transaction is new to the participant of one half, and the participant has its account. -/
structure Ready (t : Transfer n) (side : Side) (m : Machine) : Prop where
  mem : t.key side ∈ m.balances
  new : m.prepared.lookup t.tx = none
  undecided : m.decided.lookup t.tx = none

/-- The participant of one half votes YES. -/
def Votes (t : Transfer n) (side : Side) (m : Machine) : Prop := m.accepts (t.command .prepare side)

/-- The account of one half is held. -/
def held (t : Transfer n) (side : Side) (m : Machine) : Machine := m.hold (t.command .prepare side)

theorem Ready.call_of_votes (shards : Fin n → Machine) (h : t.Ready side (shards (t.shard side)))
    (hvote : t.Votes side (shards (t.shard side))) : t.call shards .prepare side =
      (Function.update shards (t.shard side) (t.held side (shards (t.shard side))), none) := by
  have hprepare := Machine.prepareLocked_of_accepts h.new h.undecided h.mem hvote
  simp only [call, Machine.applyLocked, command_op, hprepare]
  rfl

theorem Ready.call_of_not_votes (shards : Fin n → Machine)
    (h : t.Ready side (shards (t.shard side))) (hvote : ¬t.Votes side (shards (t.shard side))) :
    ∃ err, t.call shards .prepare side = (shards, some err) := by
  obtain ⟨hsame, herr⟩ := Machine.prepareLocked_of_not_accepts (t.command_op .prepare side)
    h.new h.mem hvote
  obtain ⟨err, herr⟩ := Option.ne_none_iff_exists'.mp herr
  refine ⟨err, ?_⟩
  simp only [call, Machine.applyLocked, command_op, hsame, herr, Function.update_eq_self]

/-- A commit after the vote. -/
theorem Ready.call_commit (shards : Fin n → Machine) (h : t.Ready side m)
    (hheld : shards (t.shard side) = t.held side m) :
    ∃ shards', t.call shards .commit side = (shards', none) ∧
      (∀ s, s ≠ t.shard side → shards' s = shards s) ∧ (shards' (t.shard side)).balances =
        m.balances.insert (t.key side) (m.balance (t.key side) + t.delta side) := by
  obtain ⟨hbalances, herr⟩ := Machine.commitLocked_hold (c := t.command .prepare side) h.undecided
  refine ⟨Function.update shards (t.shard side) ((t.held side m).commitLocked t.tx).1, ?_,
    fun s hs => Function.update_of_ne hs .., ?_⟩
  · rw [call, hheld]
    exact Prod.ext rfl herr
  · rw [Function.update_self]
    exact hbalances

/-! The three ways through a call. -/

section

variable {shards₁ shards₂ shards₃ shards₄ : Fin n → Machine} {err : String}

theorem execute_eq_committed (h₁ : t.call shards .prepare .source = (shards₁, none))
    (h₂ : t.call shards₁ .prepare .target = (shards₂, none))
    (h₃ : t.call shards₂ .commit .source = (shards₃, none))
    (h₄ : t.call shards₃ .commit .target = (shards₄, none)) :
    t.execute shards = (shards₄, .committed) := by
  simp only [execute, h₁, h₂, h₃, h₄]
  rfl

theorem execute_of_source_refused (h₁ : t.call shards .prepare .source = (shards₁, some err)) :
    (t.execute shards).1 = t.abortBoth shards₁ ∧
      ∃ refusal, (t.execute shards).2 = .refused refusal := by
  rw [execute, h₁]
  exact ⟨rfl, _, rfl⟩

theorem execute_of_target_refused (h₁ : t.call shards .prepare .source = (shards₁, none))
    (h₂ : t.call shards₁ .prepare .target = (shards₂, some err)) :
    (t.execute shards).1 = t.abortBoth shards₂ ∧
      ∃ refusal, (t.execute shards).2 = .refused refusal := by
  rw [execute, h₁]
  dsimp only
  rw [h₂]
  exact ⟨rfl, _, rfl⟩

end

section

variable (hne : t.source ≠ t.target) (h : ∀ side, t.Ready side (shards (t.shard side)))

include hne h

/-- Both participants vote YES. -/
theorem execute_of_votes (hvotes : ∀ side, t.Votes side (shards (t.shard side))) :
    (t.execute shards).2 = .committed ∧ ∀ side,
      ((t.execute shards).1 (t.shard side)).balances = (shards (t.shard side)).balances.insert
        (t.key side) ((shards (t.shard side)).balance (t.key side) + t.delta side) := by
  have h₁ := (h .source).call_of_votes _ (hvotes .source)
  set shards₁ :=
    Function.update shards (t.shard .source) (t.held .source (shards (t.shard .source)))
  have hrest : shards₁ (t.shard .target) = shards (t.shard .target) :=
    Function.update_of_ne hne.symm ..
  have h₂ := Ready.call_of_votes shards₁ (hrest ▸ h .target) (hrest ▸ hvotes .target)
  rw [hrest] at h₂
  set shards₂ :=
    Function.update shards₁ (t.shard .target) (t.held .target (shards (t.shard .target)))
  obtain ⟨shards₃, h₃, hframe₃, hbalances₃⟩ := (h .source).call_commit shards₂
    ((Function.update_of_ne hne ..).trans (Function.update_self ..))
  obtain ⟨shards₄, h₄, hframe₄, hbalances₄⟩ := (h .target).call_commit shards₃
    ((hframe₃ _ hne.symm).trans (Function.update_self ..))
  rw [execute_eq_committed h₁ h₂ h₃ h₄]
  refine ⟨rfl, fun side => ?_⟩
  cases side with
  | source =>
    have hkept : shards₄ (t.shard .source) = shards₃ (t.shard .source) := hframe₄ _ hne
    rw [← hbalances₃, ← hkept]
  | target => exact hbalances₄

/-- A participant votes NO. -/
theorem execute_of_not_votes (hvotes : ¬∀ side, t.Votes side (shards (t.shard side))) :
    (∃ refusal, (t.execute shards).2 = .refused refusal) ∧ ∀ side,
      ((t.execute shards).1 (t.shard side)).balances = (shards (t.shard side)).balances ∧
      ∀ k, ((t.execute shards).1 (t.shard side)).locks.lookup k =
        (shards (t.shard side)).locks.lookup k := by
  -- An abort at a participant that has not voted YES.
  have hidle : ∀ side,
      ((shards (t.shard side)).abortLocked t.tx).balances = (shards (t.shard side)).balances ∧
      ∀ k, ((shards (t.shard side)).abortLocked t.tx).locks.lookup k =
        (shards (t.shard side)).locks.lookup k := fun side =>
    ⟨Machine.balances_abortLocked .., fun k => by rw [Machine.locks_abort_of_new (h side).new]⟩
  by_cases hsource : t.Votes .source (shards (t.shard .source))
  · have htarget : ¬t.Votes .target (shards (t.shard .target)) := fun htarget =>
      hvotes fun side => by cases side <;> assumption
    have h₁ := (h .source).call_of_votes _ hsource
    set shards₁ :=
      Function.update shards (t.shard .source) (t.held .source (shards (t.shard .source)))
    have hrest : shards₁ (t.shard .target) = shards (t.shard .target) :=
      Function.update_of_ne hne.symm ..
    obtain ⟨err, h₂⟩ := Ready.call_of_not_votes shards₁ (hrest ▸ h .target)
      (hrest ▸ htarget)
    obtain ⟨hend, hrefused⟩ := execute_of_target_refused h₁ h₂
    refine ⟨hrefused, fun side => ?_⟩
    rw [hend, abortBoth_shard hne]
    cases side with
    | source =>
      have hheld : shards₁ (t.shard .source) = t.held .source (shards (t.shard .source)) :=
        Function.update_self ..
      rw [hheld]
      exact ⟨Machine.balances_abortLocked .., Machine.locks_abort_hold hsource.1⟩
    | target =>
      rw [hrest]
      exact hidle .target
  · obtain ⟨err, h₁⟩ := (h .source).call_of_not_votes _ hsource
    obtain ⟨hend, hrefused⟩ := execute_of_source_refused h₁
    refine ⟨hrefused, fun side => ?_⟩
    rw [hend, abortBoth_shard hne]
    exact hidle side

end

/-- Machine `m` has both accounts, and the shards of the transfer have one each: the same balances
and the same locks. The transaction is new. -/
structure Placed (t : Transfer n) (m : Machine) (shards : Fin n → Machine) : Prop where
  apart : t.source ≠ t.target
  distinct : t.fromKey ≠ t.toKey
  amount : 0 < t.amount.toInt
  mem : ∀ side, t.key side ∈ m.balances
  balances : ∀ side,
    (shards (t.shard side)).balances.lookup (t.key side) = m.balances.lookup (t.key side)
  locks : ∀ side, (shards (t.shard side)).locks.lookup (t.key side) = m.locks.lookup (t.key side)
  new : ∀ side, (shards (t.shard side)).prepared.lookup t.tx = none
  undecided : ∀ side, (shards (t.shard side)).decided.lookup t.tx = none

/-- The transfer in one round and the transfer in two phases have the same result, and leave the
same balances. When they fail the balances and the locks are as before. -/
structure Agrees (t : Transfer n) (m : Machine) (shards : Fin n → Machine) : Prop where
  success : (m.applyLocked t.oneRound).2.err = none ↔ t.err (t.execute shards).2 = none
  balances : t.err (t.execute shards).2 = none → ∀ side,
    ((t.execute shards).1 (t.shard side)).balances.lookup (t.key side) =
      (m.applyLocked t.oneRound).1.balances.lookup (t.key side)
  oneRound : (m.applyLocked t.oneRound).2.err ≠ none → ∀ side,
    (m.applyLocked t.oneRound).1.balances.lookup (t.key side) = m.balances.lookup (t.key side) ∧
      ∀ k, (m.applyLocked t.oneRound).1.locks.lookup k = m.locks.lookup k
  execute : t.err (t.execute shards).2 ≠ none → ∀ side,
    ((t.execute shards).1 (t.shard side)).balances.lookup (t.key side) =
        (shards (t.shard side)).balances.lookup (t.key side) ∧
      ∀ k, ((t.execute shards).1 (t.shard side)).locks.lookup k =
        (shards (t.shard side)).locks.lookup k

/-- The check of a debit that fits is the one of a transfer; one that does not is let through. -/
theorem check_debit {b a : BitVec 64} (ha : 0 < a.toInt) :
    ((-a).slt 0 && (b + -a).slt 0) = false ↔ b.slt a = false ∨ b.ssubOverflow a = true := by
  have hneg : (-a).toInt = -a.toInt := by
    refine BitVec.toInt_neg_of_ne_intMin fun h => ?_
    rw [h] at ha
    exact absurd ha (by decide)
  have hlow : (-a).slt 0 = true := by
    simp [BitVec.slt, hneg, ha]
  have hb : -2 ^ 63 ≤ b.toInt ∧ b.toInt < 2 ^ 63 := ⟨BitVec.le_toInt b, BitVec.toInt_lt⟩
  have hsub : (b - a).toInt = (b.toInt - a.toInt).bmod (2 ^ 64) := BitVec.toInt_sub
  have ha' : a.toInt < 2 ^ 63 := BitVec.toInt_lt
  have hzero : (0 : BitVec 64).toInt = 0 := rfl
  rw [hlow, Bool.true_and, ← BitVec.sub_eq_add_neg]
  simp only [BitVec.slt, BitVec.ssubOverflow, hzero, hsub, Int.bmod, decide_eq_false_iff_not,
    Bool.or_eq_true, decide_eq_true_eq]
  split_ifs <;> omega

namespace Placed

theorem balance_eq (h : t.Placed m shards) (side : Side) :
    (shards (t.shard side)).balance (t.key side) = m.balance (t.key side) := by
  rw [Machine.balance, h.balances, Machine.balance]

theorem ready (h : t.Placed m shards) (side : Side) : t.Ready side (shards (t.shard side)) where
  mem := by
    rw [← Finmap.lookup_isSome, h.balances, Finmap.lookup_isSome]
    exact h.mem side
  new := h.new side
  undecided := h.undecided side

theorem votes_iff (h : t.Placed m shards) : (∀ side, t.Votes side (shards (t.shard side))) ↔
    (∀ side, m.locks.lookup (t.key side) = none) ∧
      ((m.balance t.fromKey).slt t.amount = false ∨
        (m.balance t.fromKey).ssubOverflow t.amount = true) := by
  have hvote : ∀ side, t.Votes side (shards (t.shard side)) ↔ m.locks.lookup (t.key side) = none ∧
      ((t.delta side).slt 0 && (m.balance (t.key side) + t.delta side).slt 0) = false := by
    intro side
    rw [← h.locks side, ← h.balance_eq side]
    rfl
  have hcredit : t.amount.slt 0 = false := by
    simp only [BitVec.slt, decide_eq_false_iff_not]
    exact not_lt.mpr h.amount.le
  rw [← check_debit h.amount]
  constructor
  · intro hall
    exact ⟨fun side => ((hvote side).mp (hall side)).1, ((hvote .source).mp (hall .source)).2⟩
  · rintro ⟨hfree, hfunds⟩ side
    refine (hvote side).mpr ⟨hfree side, ?_⟩
    cases side with
    | source => exact hfunds
    | target => simp only [delta, hcredit, Bool.false_and]

theorem oneRound_iff (h : t.Placed m shards) : (m.applyLocked t.oneRound).2.err = none ↔
    (∀ side, m.locks.lookup (t.key side) = none) ∧ (m.balance t.fromKey).slt t.amount = false := by
  have hcheck : m.checkLocked [t.fromKey, t.toKey] = none ↔
      ∀ side, m.locks.lookup (t.key side) = none := by
    rw [Machine.checkLocked_eq_none_iff]
    constructor
    · intro hfree side
      cases side <;> exact (hfree _ (by simp [key])).2
    · intro hfree k hk
      rcases List.mem_pair.mp hk with rfl | rfl
      · exact ⟨h.mem .source, hfree .source⟩
      · exact ⟨h.mem .target, hfree .target⟩
  rw [Result.err_eq_none_iff, ← hcheck]
  have heffect := Machine.effect m t.oneRound
  constructor
  · intro hok
    generalize (m.applyLocked t.oneRound).1 = m' at heffect
    generalize (m.applyLocked t.oneRound).2 = r at heffect hok
    cases heffect with
    | refuse _ hr => exact absurd hok hr
    | again _ _ hc => simp [Transfer.oneRound] at hc
    | transfer _ _ _ hfree hfunds => exact ⟨hfree, hfunds⟩
    | put h | prepare h | commit h | abort h => simp [Transfer.oneRound] at h
  · rintro ⟨hfree, hfunds⟩
    simp [Machine.applyLocked, Transfer.oneRound, Machine.transferLocked, hfree, hfunds,
      Result.success]

theorem oneRound_lookup (h : t.Placed m shards) (hok : (m.applyLocked t.oneRound).2.err = none)
    (side : Side) : (m.applyLocked t.oneRound).1.balances.lookup (t.key side) =
      some (m.balance (t.key side) + t.delta side) := by
  have heffect := Machine.effect m t.oneRound
  rw [Result.err_eq_none_iff] at hok
  generalize (m.applyLocked t.oneRound).1 = m' at heffect ⊢
  generalize (m.applyLocked t.oneRound).2 = r at heffect hok
  cases heffect with
  | refuse _ hr => exact absurd hok hr
  | again _ _ hc => simp [Transfer.oneRound] at hc
  | transfer =>
    simp only [Transfer.oneRound]
    cases side with
    | source =>
      rw [key, Machine.lookup_setBalance_of_ne h.distinct, delta, ← BitVec.sub_eq_add_neg]
      exact Finmap.lookup_insert _
    | target =>
      rw [Machine.balance_setBalance, if_neg h.distinct.symm]
      exact Finmap.lookup_insert _
  | put h | prepare h | commit h | abort h => simp [Transfer.oneRound] at h

theorem oneRound_refused (hfail : (m.applyLocked t.oneRound).2.err ≠ none) :
    (m.applyLocked t.oneRound).1 = m :=
  (Machine.effect m t.oneRound).eq_of_refused fun hok =>
    hfail (Result.err_eq_none_iff.mpr hok)

end Placed

/-- **One round and two phases agree** when an account is locked, or the debit does not fall below
the lowest balance, and not otherwise. -/
theorem agrees_iff (h : t.Placed m shards) : t.Agrees m shards ↔
    (∃ side, m.locks.lookup (t.key side) ≠ none) ∨
      (m.balance t.fromKey).ssubOverflow t.amount = false := by
  constructor
  · intro hagrees
    by_contra hcon
    push Not at hcon
    obtain ⟨hfree, hlow⟩ := hcon
    rw [ne_eq, Bool.not_eq_false] at hlow
    have hvotes := h.votes_iff.mpr ⟨hfree, .inr hlow⟩
    have hcommitted := (execute_of_votes h.apart h.ready hvotes).1
    have hfunds := (h.oneRound_iff.mp (hagrees.success.mpr (by rw [hcommitted]; rfl))).2
    exact Machine.not_ssubOverflow_of_funds hfunds h.amount hlow
  · intro hcond
    have hsame : (∀ side, t.Votes side (shards (t.shard side))) ↔
        (m.applyLocked t.oneRound).2.err = none := by
      rw [h.votes_iff, h.oneRound_iff]
      refine and_congr_right fun hfree => or_iff_left fun hlow => ?_
      rcases hcond with ⟨side, hlocked⟩ | hfits
      · exact hlocked (hfree side)
      · exact absurd (hlow.symm.trans hfits) nofun
    by_cases hvotes : ∀ side, t.Votes side (shards (t.shard side))
    · obtain ⟨hcommitted, hbalances⟩ := execute_of_votes h.apart h.ready hvotes
      have hok := hsame.mp hvotes
      have herr : t.err (t.execute shards).2 = none := by
        rw [hcommitted]
        rfl
      refine ⟨iff_of_true hok herr, fun _ side => ?_, fun hfail => absurd hok hfail,
        fun hfail => absurd herr hfail⟩
      rw [hbalances, Finmap.lookup_insert, h.oneRound_lookup hok, h.balance_eq]
    · obtain ⟨⟨refusal, hrefused⟩, hkept⟩ := execute_of_not_votes h.apart h.ready hvotes
      have hfail := mt hsame.mpr hvotes
      have herr : t.err (t.execute shards).2 ≠ none := by
        rw [hrefused]
        exact Option.some_ne_none _
      refine ⟨iff_of_false hfail herr, fun hok => absurd hok herr, fun _ side => ?_,
        fun _ side => ?_⟩
      · rw [Placed.oneRound_refused hfail]
        exact ⟨rfl, fun _ => rfl⟩
      · rw [(hkept side).1]
        exact ⟨rfl, (hkept side).2⟩

/-- A transfer of 30 between the accounts of two shards. -/
def thirty : Transfer 2 := ⟨"tx1", 0, "a", 1, "b", 30⟩

/-- Two accounts on one shard. -/
def together (x y : BitVec 64) : Machine := .new 0 ((Finmap.singleton "a" x).insert "b" y)

/-- The same accounts on two shards. -/
def apart (x y : BitVec 64) : Fin 2 → Machine
  | 0 => .new 0 (.singleton "a" x)
  | 1 => .new 0 (.singleton "b" y)

theorem placed_thirty (x y : BitVec 64) : thirty.Placed (together x y) (apart x y) where
  apart := by decide
  distinct := by decide
  amount := by decide
  mem side := by cases side <;> simp [together, thirty, key, Machine.new, Finmap.mem_insert]
  balances side := by cases side <;> rfl
  locks side := by cases side <;> rfl
  new side := by cases side <;> rfl
  undecided side := by cases side <;> rfl

theorem agrees_thirty : thirty.Agrees (together 100 5) (apart 100 5) :=
  (agrees_iff (placed_thirty 100 5)).mpr (.inr (by decide))

/-- **One round and two phases differ**: an account at the lowest balance has nothing to give. The
transfer is refused in one round and is made in two phases. -/
theorem oneRound_differs :
    thirty.Placed (together 0x8000000000000000 5) (apart 0x8000000000000000 5) ∧
      ((together 0x8000000000000000 5).applyLocked thirty.oneRound).2.code = .insufficient ∧
      (thirty.execute (apart 0x8000000000000000 5)).2 = .committed ∧
      (((thirty.execute (apart 0x8000000000000000 5)).1 0).balance "a").toInt = 2 ^ 63 - 30 :=
  ⟨placed_thirty _ 5, by decide +kernel⟩

end Transfer

end PaxosPayments.ControlPlane
