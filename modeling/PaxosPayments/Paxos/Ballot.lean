import Mathlib.Data.String.Basic
import Mathlib.Data.Prod.Lex
import Mathlib.Data.List.Basic

/-!
# Ballots, entries and messages

The data of `internal/paxos/paxos.go`. A ballot is a number with the id of the replica that picked
it; `Ballot.compare` orders ballots by number and breaks ties by the id. The order is total
(`Ballot.less_iff`, with the `LinearOrder` instance), which is what the rest of the development
uses. Ballot numbers and slots are 64-bit counters: `uint64Succ` is their increment.
-/

namespace PaxosPayments.Paxos

/-- One replica of a group. -/
abbrev NodeID := String

/-- The payload of an entry; the empty command is a no-op. -/
abbrev Command := List UInt8

/-- The increment of a `uint64`. -/
def uint64Succ (n : ℕ) : ℕ := (n + 1) % 2 ^ 64

theorem uint64Succ_of_lt {n : ℕ} (h : n + 1 < 2 ^ 64) : uint64Succ n = n + 1 :=
  Nat.mod_eq_of_lt h

theorem uint64Succ_le (n : ℕ) : uint64Succ n ≤ n + 1 := Nat.mod_le _ _

/-- A proposal number. -/
structure Ballot where
  num : ℕ
  node : NodeID
  deriving DecidableEq, Repr

namespace Ballot

/-- `Ballot{}`, the ballot of a replica that has promised nothing. -/
def zero : Ballot := ⟨0, ""⟩

/-- `-1`, `0` or `1` as `b` sorts before, equal to, or after `other`. -/
def compare (b other : Ballot) : ℤ :=
  if b.num < other.num then -1
  else if b.num > other.num then 1
  else if b.node < other.node then -1
  else if b.node > other.node then 1
  else 0

def less (b other : Ballot) : Bool := b.compare other < 0

def isZero (b : Ballot) : Bool := b.num == 0 && b.node == ""

/-- The pair by which ballots are ordered. -/
def key (b : Ballot) : ℕ ×ₗ NodeID := toLex (b.num, b.node)

theorem key_injective : Function.Injective key := by
  rintro ⟨n, x⟩ ⟨m, y⟩ h
  simpa [key] using h

instance : LinearOrder Ballot := LinearOrder.lift' key key_injective

theorem lt_iff_key {b c : Ballot} : b < c ↔ b.key < c.key := Iff.rfl

theorem lt_iff {b c : Ballot} : b < c ↔ b.num < c.num ∨ b.num = c.num ∧ b.node < c.node := by
  rw [lt_iff_key]
  simp [key, Prod.Lex.toLex_lt_toLex]

theorem compare_neg_iff (b c : Ballot) : b.compare c < 0 ↔ b < c := by
  rw [lt_iff, compare]
  split_ifs with h₁ h₂ h₃ h₄
  · simp [h₁]
  · simp only [Int.reduceLT, false_iff]
    omega
  · simp only [Int.reduceNeg, Int.reduceLT, true_iff]
    exact Or.inr ⟨by omega, h₃⟩
  · simp only [Int.reduceLT, false_iff]
    rintro (h | ⟨-, h⟩)
    · omega
    · exact h₃ h
  · simp only [lt_self_iff_false, false_iff]
    rintro (h | ⟨-, h⟩)
    · omega
    · exact h₃ h

/-- The comparison of the code is a total order. -/
@[simp] theorem less_iff (b c : Ballot) : b.less c = true ↔ b < c := by
  simp [less, compare_neg_iff]

@[simp] theorem less_eq_false_iff (b c : Ballot) : b.less c = false ↔ c ≤ b := by
  rw [← Bool.not_eq_true, less_iff, not_lt]

/-- A replica's next ballot is above every ballot with the number it has promised. -/
theorem lt_of_num_lt {b c : Ballot} (h : b.num < c.num) : b < c := lt_iff.mpr (Or.inl h)

end Ballot

/-- One slot of the replicated log: the command, and the ballot it was accepted under. -/
structure Entry where
  slot : ℕ
  ballot : Ballot
  command : Command
  deriving DecidableEq, Repr

/-- A filler written by a new leader to close a gap in the log. -/
def Entry.isNoop (e : Entry) : Bool := e.command.length == 0

inductive MessageKind
  /-- Phase 1 request. -/
  | prepare
  /-- Phase 1 response. -/
  | promise
  /-- Phase 2 request. -/
  | accept
  /-- Phase 2 response. -/
  | accepted
  /-- Leader heartbeat, with the commit index. -/
  | commit
  /-- A follower asks for the entries it missed. -/
  | catchUp
  /-- Reachability probe before campaigning. -/
  | ping
  deriving DecidableEq, Repr

/-- The envelope of every protocol exchange. -/
structure Message where
  kind : MessageKind
  /-- `From`, the replica that sent it. -/
  sender : NodeID
  ballot : Ballot := Ballot.zero
  ok : Bool := false
  slot : ℕ := 0
  command : Command := []
  entries : List Entry := []
  commitIndex : ℕ := 0
  deriving DecidableEq, Repr

/-- The smallest number of replicas that constitutes a quorum. -/
def majority (groupSize : ℕ) : ℕ := groupSize / 2 + 1

theorem majority_le_iff {n k : ℕ} : majority n ≤ k ↔ n < 2 * k := by
  unfold majority
  omega

end PaxosPayments.Paxos
