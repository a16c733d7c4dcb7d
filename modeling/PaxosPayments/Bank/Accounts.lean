import Mathlib.Algebra.BigOperators.Group.List.Basic
import Mathlib.Data.Rat.Defs
import Mathlib.Tactic.Linarith

/-!
# The accounts file

The rows of a bank's users file, as `internal/accounts` reads and writes them. Every call reads the
whole file and a change replaces it, so that the rows are the state of a store. The first row of an
account counts. Balances are exact numbers and every write succeeds.
-/

namespace PaxosPayments.Bank

/-- One row of the bank users file. -/
structure Account where
  id : String
  username : String
  password : String
  bank : String
  balance : ℚ
  deriving DecidableEq, Repr

/-- The rows of a bank's users file. -/
abbrev Store := List Account

namespace Store

/-- `Store.Balance`; `none` is `ErrNotFound`. -/
def balance : Store → String → Option ℚ
  | [], _ => none
  | a :: rest, id => if a.id = id then some a.balance else balance rest id

/-- `Store.AddDelta`: the new balance and the rows that are written; `none` is `ErrNotFound`. -/
def addDelta : Store → String → ℚ → Option (ℚ × Store)
  | [], _, _ => none
  | a :: rest, id, delta =>
    if a.id ≠ id then (addDelta rest id delta).map fun (v, rows) => (v, a :: rows)
    else some (a.balance + delta, { a with balance := a.balance + delta } :: rest)

/-- The sum of all balances. -/
def sum (s : Store) : ℚ := (s.map Account.balance).sum

variable {s s' : Store} {id other : String} {delta v : ℚ}

theorem balance_eq_find? (s : Store) (id : String) :
    s.balance id = (s.find? (·.id = id)).map Account.balance := by
  induction s with
  | nil => rfl
  | cons a rest ih =>
    by_cases h : a.id = id
    · simp [balance, h]
    · simp [balance, h, ih]

theorem addDelta_cons_ne {a : Account} (h : a.id ≠ id) :
    addDelta (a :: s) id delta = (addDelta s id delta).map fun (v, rows) => (v, a :: rows) :=
  if_pos h

/-- `AddDelta` finds an account when `Balance` does. -/
theorem addDelta_eq_none_iff : s.addDelta id delta = none ↔ s.balance id = none := by
  induction s with
  | nil => simp [addDelta, balance]
  | cons a rest ih =>
    by_cases h : a.id = id
    · simp [addDelta, balance, h]
    · rw [addDelta_cons_ne h, Option.map_eq_none_iff, ih, balance, if_neg h]

/-- **What `AddDelta` writes**: the first account with the id has the new balance. -/
theorem addDelta_eq_some (h : s.addDelta id delta = some (v, s')) :
    ∃ s₁ a s₂, s = s₁ ++ a :: s₂ ∧ (∀ b ∈ s₁, b.id ≠ id) ∧ a.id = id ∧ v = a.balance + delta ∧
      s' = s₁ ++ { a with balance := v } :: s₂ := by
  induction s generalizing s' with
  | nil => simp [addDelta] at h
  | cons a rest ih =>
    by_cases ha : a.id = id
    · simp only [addDelta, ha, ne_eq, not_true_eq_false, if_false, Option.some.injEq,
        Prod.mk.injEq] at h
      obtain ⟨rfl, rfl⟩ := h
      exact ⟨[], a, rest, rfl, by simp, ha, rfl, by simp [ha]⟩
    · rw [addDelta_cons_ne ha] at h
      obtain ⟨⟨v', rows⟩, hrows, heq⟩ := Option.map_eq_some_iff.mp h
      obtain ⟨rfl, rfl⟩ := Prod.mk.inj heq
      obtain ⟨s₁, b, s₂, rfl, hbefore, hb, hv, rfl⟩ := ih hrows
      refine ⟨a :: s₁, b, s₂, rfl, ?_, hb, hv, rfl⟩
      rw [List.forall_mem_cons]
      exact ⟨ha, hbefore⟩

/-- What `AddDelta` does to the balances. -/
theorem balance_addDelta (h : s.addDelta id delta = some (v, s')) (other : String) :
    s'.balance other =
      if other = id then (s.balance id).map (· + delta) else s.balance other := by
  obtain ⟨s₁, a, s₂, rfl, hbefore, ha, rfl, rfl⟩ := addDelta_eq_some h
  simp only [balance_eq_find?, List.find?_append]
  split_ifs with ho
  · subst ho
    have hnone : s₁.find? (·.id = other) = none := by simpa using hbefore
    simp [hnone, ha]
  · have hne : a.id ≠ other := fun h => ho (h.symm.trans ha)
    simp [hne]

/-- Accounts neither appear nor disappear. -/
theorem balance_addDelta_eq_none_iff (h : s.addDelta id delta = some (v, s')) :
    s'.balance other = none ↔ s.balance other = none := by
  rw [balance_addDelta h]
  split_ifs with ho
  · rw [ho, Option.map_eq_none_iff]
  · rfl

/-- **`AddDelta` moves the sum of the balances by its delta.** -/
theorem sum_addDelta (h : s.addDelta id delta = some (v, s')) : s'.sum = s.sum + delta := by
  obtain ⟨s₁, a, s₂, rfl, -, -, rfl, rfl⟩ := addDelta_eq_some h
  simp only [sum, List.map_append, List.map_cons, List.sum_append, List.sum_cons]
  linarith

end Store

end PaxosPayments.Bank
