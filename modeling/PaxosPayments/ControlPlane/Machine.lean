import PaxosPayments.Foundations.Quoted
import PaxosPayments.Foundations.Totals
import Mathlib.Data.BitVec
import Mathlib.Tactic.Abel

/-!
# The ledger of a shard

`internal/ledger`: accounts with integer balances, and the table of locks that two-phase commit
needs. A `Machine` applies one command at a time. Balances are 64 bits wide, compared with their
sign and added modulo `2 ^ 64`.

`Effect` says what a command can do: it is refused, it is answered from what is there, or it changes
the machine in one of five ways. The lemmas after it draw from that what the coordinator depends on,
how the sum of the balances changes and what becomes of the vote and the decision of a transaction.
-/

namespace PaxosPayments.ControlPlane

/-- The operations. Any other text is an operation that no machine knows. -/
inductive Op
  | put
  | get
  | transfer
  | prepare
  | commit
  | abort
  | other (text : String)
  deriving DecidableEq

def Op.text : Op → String
  | put => "put"
  | get => "get"
  | transfer => "transfer"
  | prepare => "prepare"
  | commit => "commit"
  | abort => "abort"
  | other text => text

structure Command where
  op : Op
  key : String
  toKey : String
  /-- The value of a put, the amount of a transfer, the signed delta of a prepare. -/
  amount : BitVec 64
  tx : String
  deriving DecidableEq

inductive Code
  | ok
  | noSuchKey
  | insufficient
  | locked
  | tooManyKeys
  | unknownTx
  | badCommand
  deriving DecidableEq

structure Result where
  code : Code
  msg : String
  value : BitVec 64
  deriving DecidableEq

namespace Result

/-- A verdict other than OK. -/
def refusal (code : Code) (msg : String) : Result := ⟨code, msg, 0⟩

def success (value : BitVec 64) : Result := ⟨.ok, "", value⟩

/-- The text of the error that a code stands for. -/
def base : Code → Option String
  | .ok => none
  | .noSuchKey => some "no such key"
  | .insufficient => some "insufficient funds"
  | .locked => some "account is locked by an in-flight transaction"
  | .tooManyKeys => some "too many distinct keys"
  | .unknownTx => some "unknown transaction"
  | .badCommand => some "bad command"

/-- `Result.Err`. -/
def err (r : Result) : Option String :=
  (base r.code).map fun text => if r.msg = "" then text else text ++ ": " ++ r.msg

theorem err_eq_none_iff {r : Result} : r.err = none ↔ r.code = .ok := by
  rw [err, Option.map_eq_none_iff]
  cases r.code <;> simp [base]

end Result

/-- One replica's copy of a shard's accounts. -/
structure Machine where
  maxKeys : ℕ
  balances : Finmap fun _ : String => BitVec 64
  /-- The transaction that holds an account. -/
  locks : Finmap fun _ : String => String
  /-- The prepare of a transaction. -/
  prepared : Finmap fun _ : String => Command
  /-- Whether a transaction is committed or aborted. -/
  decided : Finmap fun _ : String => Op
  deriving DecidableEq

/-- The text of a signed number. -/
def decimal (v : BitVec 64) : String := toString v.toInt

namespace Machine

/-- An empty machine with some accounts. -/
def new (maxKeys : ℕ) (balances : Finmap fun _ : String => BitVec 64) : Machine :=
  ⟨maxKeys, balances, ∅, ∅, ∅⟩

variable (m : Machine)

/-- The balance of an account; a missing one reads as zero. -/
def balance (key : String) : BitVec 64 := (m.balances.lookup key).getD 0

def setBalance (key : String) (v : BitVec 64) : Machine :=
  { m with balances := m.balances.insert key v }

/-- `checkLocked`: the verdict on the first account that is missing or held. -/
def checkLocked : List String → Option Result
  | [] => none
  | k :: keys =>
    match m.balances.lookup k, m.locks.lookup k with
    | none, _ => some (.refusal .noSuchKey k)
    | some _, some tx => some (.refusal .locked (k ++ " is held by " ++ tx))
    | some _, none => checkLocked keys

/-- The account of the command is held for its transaction. -/
def hold (c : Command) : Machine :=
  { m with locks := m.locks.insert c.key c.tx, prepared := m.prepared.insert c.tx c }

/-- The transaction that was prepared with `p` lets go of its account. -/
def release (p : Command) (tx : String) : Machine :=
  { m with locks := m.locks.erase p.key, prepared := m.prepared.erase tx }

def decide (tx : String) (op : Op) : Machine := { m with decided := m.decided.insert tx op }

def prepareLocked (c : Command) : Machine × Result :=
  match m.prepared.lookup c.tx with
  | some existing =>
    if existing = c then (m, .success 0)
    else (m, .refusal .badCommand (c.tx ++ " already prepared with different details"))
  | none =>
    match m.decided.lookup c.tx with
    | some op =>
      (m, .refusal .unknownTx (c.tx ++ " was already decided (" ++ op.text ++ ")"))
    | none =>
      match m.checkLocked [c.key] with
      | some r => (m, r)
      | none =>
        if c.amount.slt 0 && (m.balance c.key + c.amount).slt 0 then
          (m, .refusal .insufficient
            (c.key ++ " has " ++ decimal (m.balance c.key) ++ ", needs " ++ decimal (-c.amount)))
        else (m.hold c, .success (m.balance c.key))

def transferLocked (c : Command) : Machine × Result :=
  match m.checkLocked [c.key, c.toKey] with
  | some r => (m, r)
  | none =>
    let source := m.balance c.key
    if source.slt c.amount then
      (m, .refusal .insufficient
        (c.key ++ " has " ++ decimal source ++ ", needs " ++ decimal c.amount))
    else
      let m := m.setBalance c.key (source - c.amount)
      let m := m.setBalance c.toKey (m.balance c.toKey + c.amount)
      (m, .success (m.balance c.key))

def commitLocked (tx : String) : Machine × Result :=
  if m.decided.lookup tx = some .commit then (m, .success 0)
  else
    match m.prepared.lookup tx with
    | none => (m, .refusal .unknownTx (tx ++ " was never prepared here or was aborted"))
    | some p =>
      let m := ((m.setBalance p.key (m.balance p.key + p.amount)).release p tx).decide tx .commit
      (m, .success (m.balance p.key))

def abortLocked (tx : String) : Machine :=
  let m := (m.prepared.lookup tx).elim m fun p => m.release p tx
  if m.decided.lookup tx = some .commit then m else m.decide tx .abort

def applyLocked (c : Command) : Machine × Result :=
  match c.op with
  | .put =>
    match m.locks.lookup c.key with
    | some tx => (m, .refusal .locked (c.key ++ " is held by " ++ tx))
    | none =>
      if m.balances.lookup c.key = none ∧ 0 < m.maxKeys ∧ m.maxKeys ≤ m.balances.keys.card then
        (m, .refusal .tooManyKeys ("limit is " ++ toString m.maxKeys ++ " per shard"))
      else (m.setBalance c.key c.amount, .success c.amount)
  | .get =>
    match m.balances.lookup c.key with
    | none => (m, .refusal .noSuchKey c.key)
    | some v => (m, .success v)
  | .transfer => m.transferLocked c
  | .prepare => m.prepareLocked c
  | .commit => m.commitLocked c.tx
  | .abort => (m.abortLocked c.tx, .success 0)
  | .other text => (m, .refusal .badCommand ("unknown op " ++ Quoted.quote text))

/-- The sum of all balances, modulo `2 ^ 64`. -/
def sum : BitVec 64 := total (fun _ v => v) m.balances

end Machine

/-! ## What a command does -/

/-- What a command does to a machine. -/
inductive Effect (m : Machine) (c : Command) : Machine → Result → Prop
  | refuse (r : Result) (hr : r.code ≠ .ok) : Effect m c m r
  /-- The command reads, or it repeats one that has been applied. -/
  | again (r : Result) (hr : r.code = .ok)
      (hc : c.op = .get ∨ c.op = .prepare ∧ m.prepared.lookup c.tx = some c ∨
        c.op = .commit ∧ m.decided.lookup c.tx = some .commit) : Effect m c m r
  | put (hop : c.op = .put) (hfree : m.locks.lookup c.key = none) :
    Effect m c (m.setBalance c.key c.amount) (.success c.amount)
  | transfer (hop : c.op = .transfer) (r : Result) (hr : r.code = .ok)
      (hfree : m.checkLocked [c.key, c.toKey] = none)
      (hfunds : (m.balance c.key).slt c.amount = false) :
    Effect m c ((m.setBalance c.key (m.balance c.key - c.amount)).setBalance c.toKey
      ((m.setBalance c.key (m.balance c.key - c.amount)).balance c.toKey + c.amount)) r
  | prepare (hop : c.op = .prepare) (hnew : m.prepared.lookup c.tx = none)
      (hopen : m.decided.lookup c.tx = none) (hfree : m.checkLocked [c.key] = none)
      (hfunds : (c.amount.slt 0 && (m.balance c.key + c.amount).slt 0) = false) :
    Effect m c (m.hold c) (.success (m.balance c.key))
  | commit (hop : c.op = .commit) (p : Command) (hp : m.prepared.lookup c.tx = some p)
      (hopen : m.decided.lookup c.tx ≠ some .commit) (r : Result) (hr : r.code = .ok) :
    Effect m c (((m.setBalance p.key (m.balance p.key + p.amount)).release p c.tx).decide c.tx
      .commit) r
  | abort (hop : c.op = .abort) : Effect m c (m.abortLocked c.tx) (.success 0)

namespace Machine

variable {m m' : Machine} {c : Command} {r : Result} {tx : String}

theorem sum_setBalance (m : Machine) (key : String) (v : BitVec 64) :
    (m.setBalance key v).sum = m.sum - m.balance key + v := by
  have hshare : share (fun _ v => v) m.balances key = m.balance key := by
    unfold share balance
    cases m.balances.lookup key <;> rfl
  rw [sum, sum, setBalance, total_insert, total_erase _ m.balances key, hshare]
  abel

theorem code_of_checkLocked {keys : List String} (h : m.checkLocked keys = some r) :
    r.code ≠ .ok := by
  induction keys with
  | nil => cases h
  | cons k keys ih =>
    unfold checkLocked at h
    split at h
    · rw [← Option.some.inj h]
      simp [Result.refusal]
    · rw [← Option.some.inj h]
      simp [Result.refusal]
    · exact ih h

theorem effect_prepareLocked (m : Machine) (hop : c.op = .prepare) :
    Effect m c (m.prepareLocked c).1 (m.prepareLocked c).2 := by
  unfold prepareLocked
  cases hp : m.prepared.lookup c.tx with
  | some existing =>
    by_cases hc : existing = c
    · subst hc
      simpa using Effect.again (m := m) (.success 0) rfl (.inr (.inl ⟨hop, hp⟩))
    · simpa [hc] using Effect.refuse (m := m) (c := c) _ (by simp [Result.refusal])
  | none =>
    cases hd : m.decided.lookup c.tx with
    | some op => exact .refuse _ (by simp [Result.refusal])
    | none =>
      cases hfree : m.checkLocked [c.key] with
      | some r => exact .refuse r (code_of_checkLocked hfree)
      | none =>
        cases hfunds : c.amount.slt 0 && (m.balance c.key + c.amount).slt 0 with
        | true => exact .refuse _ (by simp [Result.refusal])
        | false => exact .prepare hop hp hd hfree hfunds

theorem effect_transferLocked (m : Machine) (hop : c.op = .transfer) :
    Effect m c (m.transferLocked c).1 (m.transferLocked c).2 := by
  unfold transferLocked
  cases hfree : m.checkLocked [c.key, c.toKey] with
  | some r => exact .refuse r (code_of_checkLocked hfree)
  | none =>
    cases hfunds : (m.balance c.key).slt c.amount with
    | true =>
      simp only [hfunds, if_true]
      exact .refuse _ (by simp [Result.refusal])
    | false => simpa [hfunds] using Effect.transfer hop (.success _) rfl hfree hfunds

theorem effect_commitLocked (m : Machine) (hop : c.op = .commit) :
    Effect m c (m.commitLocked c.tx).1 (m.commitLocked c.tx).2 := by
  unfold commitLocked
  by_cases hd : m.decided.lookup c.tx = some .commit
  · rw [if_pos hd]
    exact .again (.success 0) rfl (.inr (.inr ⟨hop, hd⟩))
  · rw [if_neg hd]
    cases hp : m.prepared.lookup c.tx with
    | none => exact .refuse _ (by simp [Result.refusal])
    | some p => exact .commit hop p hp hd (.success _) rfl

/-- **A command has one of these effects.** -/
theorem effect (m : Machine) (c : Command) :
    Effect m c (m.applyLocked c).1 (m.applyLocked c).2 := by
  unfold applyLocked
  cases hop : c.op with
  | put =>
    cases hl : m.locks.lookup c.key with
    | some tx => exact .refuse _ (by simp [Result.refusal])
    | none =>
      by_cases hfull : m.balances.lookup c.key = none ∧ 0 < m.maxKeys ∧
          m.maxKeys ≤ m.balances.keys.card
      · simpa only [if_pos hfull] using Effect.refuse (m := m) (c := c) _ (by simp [Result.refusal])
      · simpa only [if_neg hfull] using Effect.put hop hl
  | get =>
    cases hv : m.balances.lookup c.key with
    | none => exact .refuse _ (by simp [Result.refusal])
    | some v => exact .again (.success v) rfl (.inl hop)
  | transfer => exact effect_transferLocked m hop
  | prepare => exact effect_prepareLocked m hop
  | commit => exact effect_commitLocked m hop
  | abort => exact .abort hop
  | other text => exact .refuse _ (by simp [Result.refusal])

end Machine

/-! ## The phases of a transaction at a machine -/

/-- Where a transaction stands at one machine. -/
inductive Phase
  | idle
  | prepared (c : Command)
  | committed
  | aborted
  deriving DecidableEq

/-- The commands of two-phase commit. -/
def Op.ofTx : Op → Bool
  | prepare | commit | abort => true
  | put | get | transfer | other _ => false

namespace Machine

variable {m m' : Machine} {c : Command} {r : Result} {tx : String}

def phase (m : Machine) (tx : String) : Phase :=
  match m.decided.lookup tx, m.prepared.lookup tx with
  | some .commit, _ => .committed
  | some _, _ => .aborted
  | none, some c => .prepared c
  | none, none => .idle

/-- No transaction is both prepared and decided. -/
def Exclusive (m : Machine) : Prop :=
  ∀ tx, m.prepared.lookup tx ≠ none → m.decided.lookup tx = none

theorem phase_eq_committed_iff : m.phase tx = .committed ↔ m.decided.lookup tx = some .commit := by
  unfold phase
  split <;> simp_all

theorem phase_of_abort (h : m.decided.lookup tx = some .abort) : m.phase tx = .aborted := by
  rw [phase, h]

theorem phase_congr (hp : m'.prepared.lookup tx = m.prepared.lookup tx)
    (hd : m'.decided.lookup tx = m.decided.lookup tx) : m'.phase tx = m.phase tx := by
  rw [phase, phase, hp, hd]

theorem phase_eq_prepared (hex : m.Exclusive) (h : m.prepared.lookup tx = some c) :
    m.phase tx = .prepared c := by
  rw [phase, hex tx (by simp [h]), h]

theorem lookup_of_phase_idle (h : m.phase tx = .idle) :
    m.prepared.lookup tx = none ∧ m.decided.lookup tx = none := by
  unfold phase at h
  split at h <;> simp_all

theorem lookup_of_phase_prepared (h : m.phase tx = .prepared c) :
    m.prepared.lookup tx = some c := by
  unfold phase at h
  split at h <;> simp_all

theorem phase_abortLocked (m : Machine) (tx : String) :
    (m.abortLocked tx).phase tx = if m.phase tx = .committed then .committed else .aborted := by
  simp only [phase_eq_committed_iff]
  unfold abortLocked
  cases hp : m.prepared.lookup tx with
  | none =>
    by_cases hd : m.decided.lookup tx = some .commit
    · simp [hd, phase]
    · simp [hd, phase, decide]
  | some p =>
    by_cases hd : m.decided.lookup tx = some .commit
    · simp [hd, phase, release]
    · simp [hd, phase, release, decide]

theorem lookup_abortLocked_of_ne {other : String} (hne : other ≠ tx) :
    (m.abortLocked tx).prepared.lookup other = m.prepared.lookup other ∧
      (m.abortLocked tx).decided.lookup other = m.decided.lookup other := by
  unfold abortLocked
  cases m.prepared.lookup tx with
  | none =>
    dsimp only [Option.elim]
    split_ifs
    · exact ⟨rfl, rfl⟩
    · exact ⟨rfl, Finmap.lookup_insert_of_ne _ hne⟩
  | some p =>
    dsimp only [Option.elim]
    split_ifs
    · exact ⟨Finmap.lookup_erase_ne hne, rfl⟩
    · exact ⟨Finmap.lookup_erase_ne hne, Finmap.lookup_insert_of_ne _ hne⟩

theorem balances_abortLocked (m : Machine) (tx : String) :
    (m.abortLocked tx).balances = m.balances := by
  unfold abortLocked
  cases m.prepared.lookup tx <;> dsimp only [Option.elim] <;> split_ifs <;> rfl

theorem prepared_abortLocked (m : Machine) (tx : String) :
    (m.abortLocked tx).prepared.lookup tx = none := by
  unfold abortLocked
  cases hp : m.prepared.lookup tx with
  | none =>
    dsimp only [Option.elim]
    split_ifs <;> exact hp
  | some p =>
    dsimp only [Option.elim]
    split_ifs <;> exact Finmap.lookup_erase _ _

end Machine

namespace Effect

variable {m m' : Machine} {c : Command} {r : Result} {tx : String}

/-- **Frame**: a command leaves the other transactions alone. -/
theorem lookup_of_ne (h : Effect m c m' r) (hne : c.op.ofTx = true → c.tx ≠ tx) :
    m'.prepared.lookup tx = m.prepared.lookup tx ∧ m'.decided.lookup tx = m.decided.lookup tx := by
  cases h with
  | refuse | again | put | transfer => exact ⟨rfl, rfl⟩
  | prepare hop =>
    have hne := (hne (by rw [hop]; rfl)).symm
    exact ⟨Finmap.lookup_insert_of_ne _ hne, rfl⟩
  | commit hop =>
    have hne := (hne (by rw [hop]; rfl)).symm
    exact ⟨Finmap.lookup_erase_ne hne, Finmap.lookup_insert_of_ne _ hne⟩
  | abort hop => exact Machine.lookup_abortLocked_of_ne (hne (by rw [hop]; rfl)).symm

theorem phase_of_ne (h : Effect m c m' r) (hne : c.op.ofTx = true → c.tx ≠ tx) :
    m'.phase tx = m.phase tx :=
  Machine.phase_congr (h.lookup_of_ne hne).1 (h.lookup_of_ne hne).2

theorem exclusive (h : Effect m c m' r) (hex : m.Exclusive) : m'.Exclusive := by
  intro tx hp
  by_cases hne : c.op.ofTx = true → c.tx ≠ tx
  · rw [(h.lookup_of_ne hne).1] at hp
    rw [(h.lookup_of_ne hne).2]
    exact hex tx hp
  push Not at hne
  obtain ⟨-, rfl⟩ := hne
  cases h with
  | refuse | again | put | transfer => exact hex _ hp
  | prepare hop hnew hopen => exact hopen
  | commit => exact absurd (Finmap.lookup_erase _ _) hp
  | abort => exact absurd (Machine.prepared_abortLocked m c.tx) hp

/-- A prepare is a YES when it is answered with OK, and changes nothing when it is refused. -/
theorem phase_prepare (h : Effect m c m' r) (hex : m.Exclusive) (hop : c.op = .prepare) :
    (m'.phase c.tx = m.phase c.tx ∨ m.phase c.tx = .idle ∧ m'.phase c.tx = .prepared c) ∧
      (r.code = .ok → m'.phase c.tx = .prepared c) := by
  cases h with
  | refuse r hr => exact ⟨.inl rfl, fun h => absurd h hr⟩
  | again r hr hc =>
    simp only [hop, reduceCtorEq, true_and, false_and, or_false, false_or] at hc
    exact ⟨.inl rfl, fun _ => Machine.phase_eq_prepared hex hc⟩
  | prepare _ hnew hopen =>
    have hheld : (m.hold c).phase c.tx = .prepared c := by simp [Machine.phase, Machine.hold, hopen]
    exact ⟨.inr ⟨by simp [Machine.phase, hnew, hopen], hheld⟩, fun _ => hheld⟩
  | put h | transfer h | commit h | abort h => simp [hop] at h

/-- A commit that changes anything settles what is prepared, and moves the sum by its delta. -/
theorem phase_commit (h : Effect m c m' r) (hex : m.Exclusive) (hop : c.op = .commit) :
    m' = m ∨ ∃ p, m.phase c.tx = .prepared p ∧ m'.phase c.tx = .committed ∧
      m'.sum = m.sum + p.amount := by
  cases h with
  | refuse | again => exact .inl rfl
  | commit _ p hp =>
    refine .inr ⟨p, Machine.phase_eq_prepared hex hp, ?_, ?_⟩
    · simp [Machine.phase, Machine.decide]
    · change (m.setBalance p.key (m.balance p.key + p.amount)).sum = m.sum + p.amount
      rw [Machine.sum_setBalance]
      abel
  | put h | transfer h | prepare h | abort h => simp [hop] at h

/-- An abort leaves what is committed. -/
theorem phase_abort (h : Effect m c m' r) (hop : c.op = .abort) :
    m'.phase c.tx = m.phase c.tx ∨ m'.phase c.tx = .aborted := by
  cases h with
  | refuse | again => exact .inl rfl
  | abort =>
    rw [Machine.phase_abortLocked]
    split_ifs with hcommitted
    · exact .inl hcommitted.symm
    · exact .inr rfl
  | put h | transfer h | prepare h | commit h => simp [hop] at h

/-- A decision to commit is final. -/
theorem phase_committed (h : Effect m c m' r) (hc : m.phase tx = .committed) :
    m'.phase tx = .committed := by
  by_cases hne : c.op.ofTx = true → c.tx ≠ tx
  · rw [h.phase_of_ne hne, hc]
  push Not at hne
  obtain ⟨-, rfl⟩ := hne
  cases h with
  | refuse | again | put | transfer => exact hc
  | prepare hop hnew hopen => simp [Machine.phase, hopen, hnew] at hc
  | commit => simp [Machine.phase, Machine.decide]
  | abort => rw [Machine.phase_abortLocked, if_pos hc]

/-- Only a commit commits. -/
theorem committed_iff (h : Effect m c m' r) (hex : m.Exclusive) (hop : c.op ≠ .commit) :
    m'.phase tx = .committed ↔ m.phase tx = .committed := by
  refine ⟨fun hc => ?_, h.phase_committed⟩
  by_cases hne : c.op.ofTx = true → c.tx ≠ tx
  · rwa [h.phase_of_ne hne] at hc
  push Not at hne
  obtain ⟨htx, rfl⟩ := hne
  cases hcop : c.op with
  | put | get | transfer | other => simp [hcop, Op.ofTx] at htx
  | commit => exact absurd hcop hop
  | prepare =>
    rcases (h.phase_prepare hex hcop).1 with heq | ⟨-, heq⟩
    · rwa [heq] at hc
    · exact absurd (heq.symm.trans hc) nofun
  | abort =>
    rcases h.phase_abort hcop with heq | heq
    · rwa [heq] at hc
    · exact absurd (heq.symm.trans hc) nofun

/-- A command other than a put or a commit keeps the sum of the balances. -/
theorem sum_eq (h : Effect m c m' r) (hput : c.op ≠ .put) (hcommit : c.op ≠ .commit) :
    m'.sum = m.sum := by
  cases h with
  | refuse | again | prepare => rfl
  | put hop => exact absurd hop hput
  | commit hop => exact absurd hop hcommit
  | abort => rw [Machine.sum, Machine.balances_abortLocked, Machine.sum]
  | transfer =>
    rw [Machine.sum_setBalance, Machine.sum_setBalance]
    abel

/-- Of the commands of two-phase commit only a commit changes balances, and it is then settled. -/
theorem balances_eq (h : Effect m c m' r) (hop : c.op.ofTx = true) :
    m'.balances = m.balances ∨ m'.phase c.tx = .committed := by
  cases h with
  | refuse | again | prepare => exact .inl rfl
  | commit => exact .inr (by simp [Machine.phase, Machine.decide])
  | abort => exact .inl (Machine.balances_abortLocked m c.tx)
  | put h | transfer h => simp [h, Op.ofTx] at hop

end Effect

end PaxosPayments.ControlPlane
