import PaxosPayments.Bank.Overdraft

/-!
# Crashes and failing writes

A commit makes two durable writes: `AddDelta` replaces the accounts file, and `record` appends a
line to the ledger file. Here either may fail, the process may die between them or within the second
one, and it may be started again on the files it has left. `Fault` says what happens to the writes
of one command, `applyWith` follows the error paths of `commit`, and `Process.moves` lists, newest
first, the deltas that have reached the accounts file; nothing reads it.

No key is applied twice in the runs in which a balance that has been written is always recorded: the
line is written in full, and it is read back as its key (`applied_once`). The code has no way to
ensure it. If the process dies after the first write, or the second fails, the key is forgotten and
the next attempt at the same transaction moves the money again (`applied_twice`).
-/

namespace PaxosPayments.Bank

/-- What happens to the two writes of a command. -/
inductive Fault
  | none
  /-- `AddDelta` returns an error, with that text, and has not replaced the file. -/
  | updateFails (text : String)
  /-- `record` returns an error, with that text, when `n` characters of the line are in the file. -/
  | recordFails (n : ℕ) (text : String)
  /-- The process dies before `AddDelta` has replaced the file. -/
  | diesBefore
  /-- The process dies after that, when `n` characters of the line are in the file. -/
  | diesDuring (n : ℕ)
  deriving DecidableEq

/-- The balance is written. -/
def Fault.writes : Fault → Bool
  | none | recordFails _ _ | diesDuring _ => true
  | updateFails _ | diesBefore => false

/-- The line of a commit in the ledger, with its newline. -/
def Command.line (c : Command) : List Char :=
  Ledger.line c.key c.source c.target c.op c.amount ++ [charEnds.newline]

/-- The ledger when `n` characters of the line are in the file and the key is not in memory. -/
def Ledger.torn (l : Ledger) (n : ℕ) (c : Command) : Ledger :=
  { l with file := l.file ++ c.line.take n }

namespace Participant

/-- `commit` under a fault; there is no answer when the process dies. -/
def commitWith (p : Participant) (c : Command) (f : Fault) :
    Participant × Option (Except Status Bool) :=
  if p.ledger.has c.key then (p.release c.key, some (.ok true))
  else
    match p.prepared.lookup c.key with
    | none =>
      (p, some (.error ⟨.aborted, "no prepared transaction " ++ c.key ++
        "; it was never prepared or has been aborted"⟩))
    | some r =>
      if !r.agrees c then
        (p, some (.error ⟨.invalidArgument,
          "commit for " ++ c.key ++ " does not match what was prepared"⟩))
      else if r.settled then (p.release c.key, some (.ok true))
      else
        match f, p.store.addDelta c.accountID c.delta with
        | .updateFails text, _ =>
          (p, some (.error ⟨.internal, "update account " ++ c.accountID ++ ": " ++ text⟩))
        | .diesBefore, _ => (p, none)
        | _, none =>
          (p.release c.key,
            some (.error ⟨.notFound, "account " ++ c.accountID ++ " disappeared before commit"⟩))
        | .recordFails n text, some (_, store) =>
          ((⟨store, p.ledger.torn n c, p.prepared⟩ : Participant).release c.key,
            some (.error ⟨.dataLoss, c.op.text ++ " applied to " ++ c.accountID ++
              " but the ledger write failed: " ++ text⟩))
        | .diesDuring n, some (_, store) => (⟨store, p.ledger.torn n c, p.prepared⟩, none)
        | .none, some (_, store) =>
          let ledger := p.ledger.record c.key c.source c.target c.op c.amount
          ((⟨store, ledger, p.prepared⟩ : Participant).release c.key, some (.ok false))

/-- `Apply` under a fault. Only commits write. -/
def applyWith (p : Participant) (c : Command) (f : Fault) : Participant × Option ApplyResult :=
  match c.kind with
  | .prepare | .abort => ((p.apply c).1, some (p.apply c).2)
  | .commit =>
    match p.commitWith c f with
    | (p', none) => (p', none)
    | (p', some (.error e)) => (p', some (.failure e))
    | (p', some (.ok settled)) => (p', some (.success settled))

/-- The command is a commit that comes to the two writes and finds its account. -/
def due (p : Participant) (c : Command) : Bool :=
  c.kind = .commit && !p.ledger.has c.key &&
    p.prepared.lookup c.key = some (c.reservation false) &&
    (p.store.balance c.accountID).isSome

end Participant

/-- A delta that has reached the accounts file. -/
structure Move where
  key : String
  accountID : String
  delta : ℚ
  deriving DecidableEq

/-- The files of a bank, with the memory of the process while it is `up`. -/
structure Process where
  participant : Participant
  up : Bool
  moves : List Move
  deriving DecidableEq

namespace Process

def start (store : Store) (l : Ledger) : Process := ⟨newParticipant store l, true, []⟩

inductive Action
  | apply (c : Command) (f : Fault)
  /-- The process dies between two commands. -/
  | crash
  | restart

def step (b : Process) : Action → Option Process
  | .apply c f =>
    if b.up then
      some ⟨(b.participant.applyWith c f).1, (b.participant.applyWith c f).2.isSome,
        if b.participant.due c && f.writes then ⟨c.key, c.accountID, c.delta⟩ :: b.moves
        else b.moves⟩
    else none
  | .crash => if b.up then some { b with up := false } else none
  | .restart => if b.up then none else b.participant.restart.map fun p => ⟨p, true, b.moves⟩

/-- What the deltas have added to an account. -/
def added (b : Process) (accountID : String) : ℚ :=
  (b.moves.map fun m => if m.accountID = accountID then m.delta else 0).sum

end Process

/-- The record of a commit is in the file in full and is read back as its key. -/
def Fault.records (c : Command) : Fault → Bool
  | none => Ledger.recordable c.key c.source c.target c.op c.amount
  | updateFails _ | diesBefore => true
  | recordFails _ _ => false
  | diesDuring n =>
    Ledger.recordable c.key c.source c.target c.op c.amount && c.line.length ≤ n

/-- A balance that is written is recorded. -/
def Process.recorded (b : Process) : Process.Action → Bool
  | .apply c f => !b.participant.due c || f.records c
  | .crash | .restart => true

theorem openLedger_file {file : List Char} {l : Ledger} (h : openLedger file = some l) :
    l.file = file := by
  unfold openLedger at h
  split_ifs at h
  obtain rfl := Option.some.inj h
  rfl

/-! ## Single commands -/

namespace Participant

variable {p : Participant} {c : Command} {f : Fault}

theorem commitWith_none (p : Participant) (c : Command) :
    p.commitWith c .none = ((p.commit c).1, some (p.commit c).2) := by
  unfold commitWith commit
  split_ifs
  · rfl
  · cases p.prepared.lookup c.key with
    | none => rfl
    | some r =>
      dsimp only
      split_ifs
      · rfl
      · rfl
      · cases p.store.addDelta c.accountID c.delta <;> rfl

/-- Without a fault a command is applied as before. -/
theorem applyWith_none (p : Participant) (c : Command) :
    p.applyWith c .none = ((p.apply c).1, some (p.apply c).2) := by
  unfold applyWith
  cases hk : c.kind with
  | prepare | abort => rfl
  | commit =>
    simp only [commitWith_none, apply, hk]
    generalize p.commit c = q
    obtain ⟨p', res⟩ := q
    cases res <;> rfl

/-- What a due commit finds. -/
theorem due_iff : p.due c = true ↔ c.kind = .commit ∧ p.ledger.has c.key = false ∧
    p.prepared.lookup c.key = some (c.reservation false) ∧
    p.store.balance c.accountID ≠ none := by
  simp only [due, Bool.and_eq_true, decide_eq_true_eq, Bool.not_eq_true', and_assoc,
    Option.isSome_iff_ne_none]

/-- Due are the commits that change a balance when nothing goes wrong. -/
theorem due_iff_moves : p.due c = true ↔ c.moves (p.apply c).2 = true := by
  constructor
  · intro h
    obtain ⟨hk, hhas, hlookup, hbalance⟩ := due_iff.mp h
    rw [← hhas] at hlookup
    have hres := (apply_commit_held hk hlookup (Or.inr hbalance)).1
    simp [hres, Command.moves, hk, ApplyResult.success, hhas]
  · intro h
    have hfiles := (Outcome.of_apply p c).files
    rw [if_pos h] at hfiles
    obtain ⟨hkey, ⟨v, hadd⟩, -⟩ := hfiles
    refine due_iff.mpr ⟨?_, decide_eq_false hkey, lookup_of_moves h, fun hnone => ?_⟩
    · by_contra hk
      simp [Command.moves, hk] at h
    · rw [Store.addDelta_eq_none_iff.mpr hnone] at hadd
      cases hadd

/-- **The files change only by a due commit**, and not by one that fails before its first write. -/
theorem files_applyWith (h : (p.due c && f.writes) = false) :
    (p.applyWith c f).1.store = p.store ∧ (p.applyWith c f).1.ledger = p.ledger := by
  have hkeep : c.moves (p.apply c).2 = false → (p.apply c).1.store = p.store ∧
      (p.apply c).1.ledger = p.ledger := by
    intro hmoves
    have hfiles := (Outcome.of_apply p c).files
    rw [hmoves] at hfiles
    exact hfiles
  unfold applyWith
  cases hk : c.kind with
  | prepare | abort => exact hkeep (by simp [Command.moves, hk])
  | commit =>
    unfold commitWith
    cases hhas : p.ledger.has c.key with
    | true => exact ⟨rfl, rfl⟩
    | false =>
      cases hr : p.prepared.lookup c.key with
      | none => exact ⟨rfl, rfl⟩
      | some r =>
        by_cases hag : r.agrees c = true
        · cases hs : r.settled with
          | true => simp [hag, hs, release]
          | false =>
            rw [eq_reservation hag hs] at hr
            cases hadd : p.store.addDelta c.accountID c.delta with
            | none => cases f <;> simp [hag, hs, release]
            | some w =>
              have hbalance : p.store.balance c.accountID ≠ none := fun hnone => by
                rw [Store.addDelta_eq_none_iff.mpr hnone] at hadd
                cases hadd
              rw [due_iff.mpr ⟨hk, hhas, hr, hbalance⟩, Bool.true_and] at h
              cases f <;> simp [Fault.writes] at h <;> simp [hag, hs]
        · simp [hag]

/-- What a due commit leaves once its balance is written. -/
theorem applyWith_of_due (h : p.due c = true) : ∃ v store,
    p.store.addDelta c.accountID c.delta = some (v, store) ∧
    p.applyWith c .none = ((⟨store, p.ledger.record c.key c.source c.target c.op c.amount,
      p.prepared⟩ : Participant).release c.key, some (.success false)) ∧
    (∀ n text, p.applyWith c (.recordFails n text) =
      ((⟨store, p.ledger.torn n c, p.prepared⟩ : Participant).release c.key,
        some (.failure ⟨.dataLoss, c.op.text ++ " applied to " ++ c.accountID ++
          " but the ledger write failed: " ++ text⟩))) ∧
    ∀ n, p.applyWith c (.diesDuring n) = (⟨store, p.ledger.torn n c, p.prepared⟩, none) := by
  obtain ⟨hk, hhas, hlookup, hbalance⟩ := due_iff.mp h
  obtain ⟨⟨v, store⟩, hadd⟩ := Option.ne_none_iff_exists'.mp
    (mt Store.addDelta_eq_none_iff.mp hbalance : p.store.addDelta c.accountID c.delta ≠ none)
  have hag : (c.reservation false).agrees c = true := by
    simp [Reservation.agrees, Command.reservation]
  have hs : (c.reservation false).settled = false := rfl
  unfold applyWith commitWith
  refine ⟨v, store, hadd, ?_, fun n text => ?_, fun n => ?_⟩ <;>
    simp only [hk, hhas, Bool.false_eq_true, if_false, hlookup, hag, Bool.not_true, hs, hadd]

/-- A due commit that gets to its first write changes the balance. -/
theorem store_applyWith (h : p.due c = true) (hf : f.writes = true) :
    ∃ v, p.store.addDelta c.accountID c.delta = some (v, (p.applyWith c f).1.store) := by
  obtain ⟨v, store, hadd, hnone, hfails, hdies⟩ := applyWith_of_due h
  refine ⟨v, ?_⟩
  cases f with
  | none => rw [hadd, hnone, release]
  | recordFails n text => rw [hadd, hfails, release]
  | diesDuring n => rw [hadd, hdies]
  | updateFails | diesBefore => simp [Fault.writes] at hf

end Participant

/-! ## Whole runs -/

namespace Process

variable {store : Store} {l : Ledger} {b b' : Process} {a : Action} {acts : List Action}

/-- Whatever fails, a balance is what it was at first and the deltas that have been written. -/
theorem balance_eq {ok : Process → Action → Bool} (hrun : Run step ok (start store l) acts b)
    (id : String) : b.participant.store.balance id =
      (store.balance id).map (· + b.added id) := by
  refine hrun.invariant (I := fun b => b.participant.store.balance id =
    (store.balance id).map (· + b.added id)) (fun b a b' h _ hs => ?_)
    (by simp [start, newParticipant, added])
  cases a with
  | apply c f =>
    simp only [step] at hs
    split_ifs at hs with hup hwrites <;> obtain rfl := Option.some.inj hs
    · obtain ⟨hdue, hf⟩ := Bool.and_eq_true_iff.mp hwrites
      obtain ⟨v, hadd⟩ := Participant.store_applyWith hdue hf
      simp only [Store.balance_addDelta hadd, added, List.map_cons, List.sum_cons]
      split_ifs with hid hid' hid'
      · rw [← hid, h, Option.map_map]
        congr 1
        funext v
        simp only [Function.comp_apply, added]
        ring
      · exact absurd hid.symm hid'
      · exact absurd hid'.symm hid
      · rw [h, zero_add]
        rfl
    · rw [(Participant.files_applyWith (Bool.eq_false_iff.mpr hwrites)).1]
      exact h
  | crash =>
    simp only [step] at hs
    split_ifs at hs
    obtain rfl := Option.some.inj hs
    exact h
  | restart =>
    simp only [step] at hs
    split_ifs at hs
    obtain ⟨p, hp, rfl⟩ := Option.map_eq_some_iff.mp hs
    obtain ⟨l', -, rfl⟩ := Option.map_eq_some_iff.mp hp
    exact h

/-- The ledger file can be read, has the keys of all deltas, and agrees with the memory of the
process while it runs; no key has two deltas. -/
structure Kept (b : Process) : Prop where
  whole : charEnds.Whole b.participant.ledger.file
  read : ∃ l, openLedger b.participant.ledger.file = some l ∧
    (b.up = true → b.participant.ledger = l) ∧ ∀ m ∈ b.moves, m.key ∈ l.applied
  nodup : (b.moves.map Move.key).Nodup

theorem Kept.init (hl : (newParticipant store l).Durable) : (start store l).Kept :=
  ⟨hl.1, ⟨l, hl.2, fun _ => rfl, by simp [start]⟩, List.nodup_nil⟩

/-- A process on the same files, with the same memory of the ledger if it runs. -/
theorem Kept.same (h : b.Kept) (hledger : b'.participant.ledger = b.participant.ledger)
    (hmoves : b'.moves = b.moves) (hup : b'.up = true → b.up = true) : b'.Kept := by
  obtain ⟨hwhole, ⟨l, hl, hmem, hkeys⟩, hnodup⟩ := h
  refine ⟨hledger ▸ hwhole, ⟨l, hledger ▸ hl, fun h => ?_, hmoves ▸ hkeys⟩, hmoves ▸ hnodup⟩
  rw [hledger, hmem (hup h)]

/-- A delta whose record is in the file in full. -/
theorem Kept.recorded (h : b.Kept) {c : Command} (hup : b.up = true)
    (hdue : b.participant.due c = true)
    (hrec : Ledger.recordable c.key c.source c.target c.op c.amount = true)
    (hfile : b'.participant.ledger.file = b.participant.ledger.file ++ c.line)
    (hmem : b'.up = true → b'.participant.ledger =
      b.participant.ledger.record c.key c.source c.target c.op c.amount)
    (hmoves : b'.moves = ⟨c.key, c.accountID, c.delta⟩ :: b.moves) : b'.Kept := by
  obtain ⟨hwhole, ⟨l, hl, heq, hkeys⟩, hnodup⟩ := h
  have hledger := heq hup
  subst hledger
  have hnew : c.key ∉ b.participant.ledger.applied :=
    of_decide_eq_false (Participant.due_iff.mp hdue).2.1
  have hfile' : b'.participant.ledger.file =
      (b.participant.ledger.record c.key c.source c.target c.op c.amount).file := hfile
  refine ⟨hfile' ▸ Ledger.whole_record _,
    ⟨_, hfile' ▸ Ledger.openLedger_record hwhole hl hrec, hmem, fun m hm => ?_⟩, ?_⟩
  · rw [hmoves] at hm
    rcases List.mem_cons.mp hm with rfl | hm
    · exact Finset.mem_insert_self _ _
    · exact Finset.mem_insert_of_mem (hkeys m hm)
  · rw [hmoves, List.map_cons, List.nodup_cons]
    refine ⟨fun hmem' => ?_, hnodup⟩
    obtain ⟨m, hm, hkey⟩ := List.mem_map.mp hmem'
    have hkey' : m.key = c.key := hkey
    exact hnew (hkey' ▸ hkeys m hm)

theorem Kept.apply (h : b.Kept) {c : Command} {f : Fault} (hup : b.up = true)
    (hok : b.recorded (.apply c f) = true) (hs : b.step (.apply c f) = some b') : b'.Kept := by
  simp only [step, hup, if_true, Option.some.injEq] at hs
  subst hs
  by_cases hwrites : (b.participant.due c && f.writes) = true
  · obtain ⟨hdue, hf⟩ := Bool.and_eq_true_iff.mp hwrites
    obtain ⟨v, store, -, hnone, -, hdies⟩ := Participant.applyWith_of_due hdue
    simp only [Process.recorded, hdue, Bool.not_true, Bool.false_or] at hok
    cases f with
    | none =>
      refine h.recorded hup hdue hok ?_ (fun _ => ?_) (by rw [if_pos hwrites]) <;>
        rw [hnone] <;> rfl
    | updateFails | diesBefore => simp [Fault.writes] at hf
    | recordFails => simp [Fault.records] at hok
    | diesDuring n =>
      simp only [Fault.records, Bool.and_eq_true, decide_eq_true_eq] at hok
      refine h.recorded hup hdue hok.1 ?_ (fun hup' => ?_) (by rw [if_pos hwrites])
      · rw [hdies, Ledger.torn, List.take_of_length_le hok.2]
      · rw [hdies] at hup'
        cases hup'
  · refine h.same ?_ ?_ fun _ => hup
    · exact (Participant.files_applyWith (Bool.eq_false_iff.mpr hwrites)).2
    · simp only [if_neg hwrites]

theorem Kept.step (h : b.Kept) (hok : b.recorded a = true) (hs : b.step a = some b') :
    b'.Kept := by
  cases a with
  | apply c f =>
    by_cases hup : b.up = true
    · exact h.apply hup hok hs
    · simp [Process.step, hup] at hs
  | crash =>
    simp only [Process.step] at hs
    split_ifs at hs with hup
    obtain rfl := Option.some.inj hs
    exact h.same rfl rfl fun _ => hup
  | restart =>
    simp only [Process.step] at hs
    split_ifs at hs
    obtain ⟨p, hp, rfl⟩ := Option.map_eq_some_iff.mp hs
    obtain ⟨l, hl, rfl⟩ := Option.map_eq_some_iff.mp hp
    obtain ⟨hwhole, ⟨l', hl', -, hkeys⟩, hnodup⟩ := h
    obtain rfl : l = l' := Option.some.inj (hl.symm.trans hl')
    have hfile : l.file = b.participant.ledger.file := openLedger_file hl
    exact ⟨hfile ▸ hwhole, ⟨l, hfile ▸ hl, fun _ => rfl, hkeys⟩, hnodup⟩

/-- **Every committed key is applied once.** -/
theorem applied_once (hl : (newParticipant store l).Durable)
    (hrun : Run step recorded (start store l) acts b) (id : String) :
    (b.moves.map Move.key).Nodup ∧
      b.participant.store.balance id = (store.balance id).map (· + b.added id) :=
  ⟨(hrun.invariant (I := Kept) (fun _ _ _ h hok hs => h.step hok hs) (.init hl)).nodup,
    balance_eq hrun id⟩

/-- A bank with 100 in the account of `alice`. -/
def hundred : Process := start [⟨"alice", "alice", "a", "bank1", 100⟩] ⟨[], ∅⟩

def debitTen (k : CmdKind) : Command := ⟨k, "1-debit", .debit, "alice", "bob", 10⟩

/-- The process dies before the first write, after the second, and between two commands. -/
def recordedCrashes : List Action :=
  [.apply (debitTen .prepare) .none, .apply (debitTen .commit) .diesBefore, .restart,
    .apply (debitTen .prepare) .none, .apply (debitTen .commit) (.diesDuring 100), .restart,
    .apply (debitTen .prepare) .none, .apply (debitTen .commit) .none, .crash, .restart]

theorem applied_once_crashes :
    ∃ b, Run step recorded hundred recordedCrashes b ∧ (b.moves.map Move.key).Nodup ∧
      b.participant.store.balance "alice" = some 90 := by
  obtain ⟨b, hrun, hbalance⟩ := Run.exists_of_exec_map step recorded hundred recordedCrashes
    (fun b => b.participant.store.balance "alice") (some 90) (by decide +kernel)
  exact ⟨b, hrun, (applied_once ⟨Or.inl rfl, by decide +kernel⟩ hrun "alice").1, hbalance⟩

/-- The process dies between the two writes, and the transaction is tried again. -/
def forgottenCrash : List Action :=
  [.apply (debitTen .prepare) .none, .apply (debitTen .commit) (.diesDuring 0), .restart,
    .apply (debitTen .prepare) .none, .apply (debitTen .commit) .none]

/-- The second write fails, and the transaction is tried again. -/
def forgottenFailure : List Action :=
  [.apply (debitTen .prepare) .none,
    .apply (debitTen .commit) (.recordFails 0 "no space left on device"),
    .apply (debitTen .prepare) .none, .apply (debitTen .commit) .none]

/-- Both times the one debit of 10 has been made twice. -/
theorem applied_twice :
    (∃ b, Run step always hundred forgottenCrash b ∧
      (b.moves.map Move.key, b.participant.store.balance "alice") =
        (["1-debit", "1-debit"], some 80)) ∧
    ∃ b, Run step always hundred forgottenFailure b ∧
      (b.moves.map Move.key, b.participant.store.balance "alice") =
        (["1-debit", "1-debit"], some 80) := by
  constructor <;>
    exact Run.exists_of_exec_map step always hundred _
      (fun b => (b.moves.map Move.key, b.participant.store.balance "alice")) _ (by decide +kernel)

end Process

end PaxosPayments.Bank
