import PaxosPayments.Bank.Participant
import PaxosPayments.Foundations.Quoted

/-!
# The banks behind the gateway

The banks that are registered with the gateway, by name. `execute` is a request of the gateway at
one of them. It touches one key of one bank: the lemmas say so for the three things the coordinator
depends on, whether a key is `settled` there, which reservation is `held` under it, and whether an
account has a `balance`.
-/

namespace PaxosPayments.Gateway

open Bank

/-- The registered banks. -/
abbrev Banks := Finmap fun _ : String => Participant

namespace Banks

/-- The key is in the ledger of the bank. -/
def settled (banks : Banks) (name key : String) : Bool :=
  (banks.lookup name).any (·.ledger.has key)

/-- The reservation of the bank under the key. -/
def held (banks : Banks) (name key : String) : Option Reservation :=
  (banks.lookup name).bind (·.prepared.lookup key)

/-- The balance of an account at the bank. -/
def balance (banks : Banks) (name accountID : String) : Option ℚ :=
  (banks.lookup name).bind (·.store.balance accountID)

/-- The sum of all balances over all banks. -/
def sum (banks : Banks) : ℚ := total (fun _ p => p.store.sum) banks

/-- The bank of that name applies a command. -/
def execute (banks : Banks) (name : String) (c : Command) : Banks × ApplyResult :=
  match banks.lookup name with
  | none =>
    (banks, .failure ⟨.notFound,
      "bank " ++ Quoted.quote name ++ " is not registered with this gateway"⟩)
  | some p => (banks.insert name (p.apply c).1, (p.apply c).2)

variable {banks : Banks} {name other key accountID : String} {c : Command} {p : Participant}

theorem execute_of_lookup (h : banks.lookup name = some p) (c : Command) :
    banks.execute name c = (banks.insert name (p.apply c).1, (p.apply c).2) := by
  rw [execute, h]

theorem execute_of_lookup_none (h : banks.lookup name = none) (c : Command) :
    (banks.execute name c).1 = banks ∧ c.moves (banks.execute name c).2 = false := by
  rw [execute, h]
  exact ⟨rfl, by simp [Command.moves, ApplyResult.failure]⟩

theorem lookup_execute_ne (h : other ≠ name) (c : Command) :
    (banks.execute name c).1.lookup other = banks.lookup other := by
  unfold execute
  cases banks.lookup name with
  | none => rfl
  | some p => exact Finmap.lookup_insert_of_ne _ h

theorem lookup_execute_self (h : banks.lookup name = some p) (c : Command) :
    (banks.execute name c).1.lookup name = some (p.apply c).1 := by
  rw [execute_of_lookup h]
  exact Finmap.lookup_insert _

/-- A bank stays registered. -/
theorem lookup_execute_isSome :
    ((banks.execute name c).1.lookup other).isSome = (banks.lookup other).isSome := by
  by_cases h : other = name
  · subst h
    cases hp : banks.lookup other with
    | none => rw [(execute_of_lookup_none hp c).1, hp]
    | some p => rw [lookup_execute_self hp]; rfl
  · rw [lookup_execute_ne h]

/-- A request leaves the reservations under other keys alone. -/
theorem held_execute_ne (h : other ≠ name ∨ key ≠ c.key) :
    (banks.execute name c).1.held other key = banks.held other key := by
  unfold held
  by_cases hn : other = name
  · subst hn
    cases hp : banks.lookup other with
    | none => rw [(execute_of_lookup_none hp c).1, hp]
    | some p =>
      rw [lookup_execute_self hp]
      exact (Participant.Outcome.of_apply p c).lookup_ne (h.resolve_left (not_not.mpr rfl))
  · rw [lookup_execute_ne hn]

/-- A key is settled by the request that changes a balance, and stays settled. -/
theorem settled_execute :
    (banks.execute name c).1.settled other key = true ↔ banks.settled other key = true ∨
      other = name ∧ key = c.key ∧ c.moves (banks.execute name c).2 = true := by
  unfold settled
  by_cases hn : other = name
  · subst hn
    cases hp : banks.lookup other with
    | none => simp [(execute_of_lookup_none hp c).1, (execute_of_lookup_none hp c).2, hp]
    | some p =>
      rw [lookup_execute_self hp, execute_of_lookup hp]
      have happlied := (Participant.Outcome.of_apply p c).applied
      split_ifs at happlied with hmoves
      · simp [Ledger.has, happlied.2, hmoves, or_comm]
      · simp [happlied, hmoves]
  · rw [lookup_execute_ne hn]
    simp [hn]

theorem settled_mono (h : banks.settled other key = true) :
    (banks.execute name c).1.settled other key = true :=
  settled_execute.mpr (Or.inl h)

/-- The key of a request that changes a balance was not settled. -/
theorem not_settled_of_moves (h : c.moves (banks.execute name c).2 = true) :
    banks.settled name c.key = false := by
  unfold settled
  cases hp : banks.lookup name with
  | none => rw [(execute_of_lookup_none hp c).2] at h; cases h
  | some p =>
    rw [execute_of_lookup hp] at h
    have happlied := (Participant.Outcome.of_apply p c).applied
    rw [if_pos h] at happlied
    simpa [Ledger.has] using happlied.1

/-- A request that changes a balance has had a reservation. -/
theorem held_of_moves (h : c.moves (banks.execute name c).2 = true) :
    banks.held name c.key ≠ none := by
  unfold held
  cases hp : banks.lookup name with
  | none => rw [(execute_of_lookup_none hp c).2] at h; cases h
  | some p =>
    rw [execute_of_lookup hp] at h
    exact (Participant.Outcome.of_apply p c).held h

/-- Every bank marks only those reservations as settled that are. -/
def Sound (banks : Banks) : Prop := ∀ name p, banks.lookup name = some p → p.Sound

theorem sound_execute (h : banks.Sound) (name : String) (c : Command) :
    (banks.execute name c).1.Sound := by
  intro other q hq
  by_cases hn : other = name
  · subst hn
    cases hp : banks.lookup other with
    | none =>
      rw [(execute_of_lookup_none hp c).1] at hq
      exact h other q hq
    | some p =>
      rw [lookup_execute_self hp, Option.some.injEq] at hq
      subst hq
      exact (Participant.Outcome.of_apply p c).sound (h other p hp)
  · rw [lookup_execute_ne hn] at hq
    exact h other q hq

/-- **A commit that is answered with success is settled.** -/
theorem settled_of_commit (h : banks.Sound) (hk : c.kind = .commit)
    (herr : (banks.execute name c).2.err = none) :
    (banks.execute name c).1.settled name c.key = true := by
  cases hp : banks.lookup name with
  | none => simp [execute, hp, ApplyResult.err, ApplyResult.failure] at herr
  | some p =>
    rw [execute_of_lookup hp] at herr
    have hok : (p.apply c).2.code = .ok := by
      by_contra hne
      simp [ApplyResult.err, hne] at herr
    have hmem := (Participant.Outcome.of_apply p c).mem_of_commit (h name p hp) hk hok
    rw [settled, lookup_execute_self hp]
    exact Ledger.has_iff.mpr hmem

/-- What a request adds to an account. -/
theorem balance_execute :
    (banks.execute name c).1.balance other accountID = (banks.balance other accountID).map
      (· + if name = other ∧ c.accountID = accountID ∧ c.moves (banks.execute name c).2 then c.delta
        else 0) := by
  unfold balance
  by_cases hn : name = other
  · subst hn
    cases hp : banks.lookup name with
    | none => simp [(execute_of_lookup_none hp c).1, hp]
    | some p =>
      rw [lookup_execute_self hp, execute_of_lookup hp]
      have hstore := (Participant.Outcome.of_apply p c).store
      simp only [Option.bind_some, true_and]
      split_ifs at hstore with hmoves
      · obtain ⟨v, hadd⟩ := hstore
        rw [Store.balance_addDelta hadd]
        by_cases ha : c.accountID = accountID
        · simp [ha, hmoves]
        · simp [ha, Ne.symm ha]
      · simp [hstore, hmoves]
  · rw [lookup_execute_ne (Ne.symm hn)]
    simp [hn]

/-- Accounts neither appear nor disappear. -/
theorem balance_execute_eq_none_iff :
    (banks.execute name c).1.balance other accountID = none ↔
      banks.balance other accountID = none := by
  rw [balance_execute, Option.map_eq_none_iff]

/-- **A request moves the sum of all balances by the amount it says.** -/
theorem sum_execute (banks : Banks) (name : String) (c : Command) :
    (banks.execute name c).1.sum =
      banks.sum + if c.moves (banks.execute name c).2 then c.delta else 0 := by
  cases hp : banks.lookup name with
  | none => simp [(execute_of_lookup_none hp c).1, (execute_of_lookup_none hp c).2]
  | some p =>
    rw [execute_of_lookup hp]
    have hreplace := total_replace hp (fun _ p => p.store.sum) (p.apply c).1
    have hstore := (Participant.Outcome.of_apply p c).store
    simp only [sum]
    split_ifs at hstore ⊢
    · obtain ⟨v, hadd⟩ := hstore
      have hsum := Store.sum_addDelta hadd
      linarith
    · rw [hstore] at hreplace
      linarith

end Banks

end PaxosPayments.Gateway
