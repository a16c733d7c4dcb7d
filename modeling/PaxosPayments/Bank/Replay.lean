import PaxosPayments.Bank.Participant
import PaxosPayments.Foundations.Runs

/-!
# Restart and replay of a bank replica

A bank that is started again has its accounts file and its ledger file, no reservations, and a Paxos
log that is applied again from its first slot (`restart`). Commands that were settled before the
stop are recognised by their keys. The others are decided anew, against the balances of the stop.

The replayed participant ends where the stopped one was, and goes on like it, when each of these
decisions comes out as it did the first time (`sameVerdict`) and each record of the ledger is read
back as its key (`recordable`): `replay_eq`. `Replays` is the relation between the two runs that
carries the proof.

The code ensures neither. A debit that was refused for lack of funds is held when it is replayed
after a later credit (`replay_ne`).
-/

namespace PaxosPayments.Bank

namespace Participant

/-- One command of the log, as a step. -/
def step (p : Participant) (c : Command) : Option Participant := some (p.apply c).1

/-- The commands of the log, in slot order. -/
def applyLog (p : Participant) (log : List Command) : Participant :=
  log.foldl (fun p c => (p.apply c).1) p

/-- The start of a bank on the files that a stopped one has left. -/
def restart (p : Participant) : Option Participant :=
  (openLedger p.ledger.file).map (newParticipant p.store)

/-- What the transactions outside of a ledger withhold of the balance of an account. -/
def reservedOutside (p : Participant) (l : Ledger) (accountID : String) : ℚ :=
  total (fun k r => if l.has k then 0 else r.withheld accountID) p.prepared

/-- The balance, if there is one, less what is reserved of it does not cover an amount. -/
def short (balance : Option ℚ) (reserved amount : ℚ) : Bool :=
  balance.any fun b => b - reserved < amount

/-- A `PREPARE` of a debit that comes to the check of funds, in a transaction that is not settled at
the stop. -/
def newDebit (stop p : Participant) (c : Command) : Bool :=
  c.kind = .prepare && c.op = .debit && c.accountID ≠ c.counterparty && 0 < c.amount &&
    !stop.ledger.has c.key && p.prepared.lookup c.key = none

/-- A new debit is short of funds exactly when it is short of them against the balance at the stop
and the reservations of the transactions that are not settled there. -/
def sameVerdict (stop p : Participant) (c : Command) : Bool :=
  !newDebit stop p c ||
    short (p.store.balance c.accountID) (p.reservedLocked c.accountID) c.amount ==
      short (stop.store.balance c.accountID) (p.reservedOutside stop.ledger c.accountID) c.amount

/-- A command that changes a balance has a record that is read back as its key. -/
def readBack (p : Participant) (c : Command) : Bool :=
  !c.moves (p.apply c).2 || Ledger.recordable c.key c.source c.target c.op c.amount

/-- The condition on the commands before the stop. -/
def replayable (stop p : Participant) (c : Command) : Bool := sameVerdict stop p c && readBack p c

/-! ## Two runs of one log -/

/-- The participant `r` replays on the files of `stop` what `p` has applied on the way there. On the
transactions that are settled in both or in neither, they hold the same; on those that only `stop`
has settled, `r` holds nothing that counts. -/
structure Replays (stop p r : Participant) : Prop where
  store : r.store = stop.store
  ledger : r.ledger = stop.ledger
  agree : ∀ k, k ∉ stop.ledger.applied ∨ k ∈ p.ledger.applied →
    r.prepared.lookup k = p.prepared.lookup k
  settled : ∀ k ∈ stop.ledger.applied, ∀ x, r.prepared.lookup k = some x → x.settled = true

variable {stop p r : Participant} {c : Command}

/-- The reservations that count in the replay are those of the unsettled transactions. -/
theorem Replays.reserved (h : Replays stop p r) (accountID : String) :
    r.reservedLocked accountID = p.reservedOutside stop.ledger accountID := by
  refine total_congr fun k => ?_
  by_cases hk : k ∈ stop.ledger.applied
  · have hr : share (fun _ r => r.withheld accountID) r.prepared k = 0 := by
      cases hx : r.prepared.lookup k with
      | none => exact share_of_lookup_none hx
      | some x =>
        rw [share_of_lookup_some hx, Reservation.withheld, if_neg]
        rw [h.settled k hk x hx]
        simp
    rw [hr]
    cases hx : p.prepared.lookup k with
    | none => rw [share_of_lookup_none hx]
    | some x => rw [share_of_lookup_some hx, if_pos (Ledger.has_iff.mpr hk)]
  · unfold share
    rw [h.agree k (Or.inl hk)]
    cases p.prepared.lookup k with
    | none => rfl
    | some x => simp [mt Ledger.has_iff.mp hk]

/-- One command, seen at its own key: the rest of the table stays as it is. -/
theorem Replays.next {p' r' : Participant} {res res' : ApplyResult} (h : Replays stop p r)
    (hp : Outcome p c p' res) (hr : Outcome r c r' res') (hmoves : c.moves res' = false)
    (hagree : c.key ∉ stop.ledger.applied ∨ c.key ∈ p'.ledger.applied →
      r'.prepared.lookup c.key = p'.prepared.lookup c.key)
    (hsettled : c.key ∈ stop.ledger.applied → ∀ x, r'.prepared.lookup c.key = some x →
      x.settled = true) : Replays stop p' r' := by
  have hstore := hr.store
  have hledger := hr.applied
  rw [hmoves] at hstore hledger
  have hmem : ∀ k, k ≠ c.key → k ∈ p'.ledger.applied → k ∈ p.ledger.applied := by
    intro k hk hmem
    have happlied := hp.applied
    split_ifs at happlied
    · rw [happlied.2] at hmem
      exact (Finset.mem_insert.mp hmem).resolve_left hk
    · rwa [happlied] at hmem
  refine ⟨hstore.trans h.store, hledger.trans h.ledger, fun k hk => ?_, fun k hk x hx => ?_⟩
  · by_cases hkey : k = c.key
    · subst hkey
      exact hagree hk
    · rw [hp.lookup_ne hkey, hr.lookup_ne hkey]
      exact h.agree k (hk.imp_right (hmem k hkey))
  · by_cases hkey : k = c.key
    · subst hkey
      exact hsettled hk x hx
    · rw [hr.lookup_ne hkey] at hx
      exact h.settled k hk x hx

/-! ## Commands of settled transactions -/

theorem lookup_release (q : Participant) (key : String) :
    (q.release key).prepared.lookup key = none :=
  Finmap.lookup_erase _ _

/-- A `PREPARE` of a transaction that is settled at the stop. -/
theorem Replays.prepare_settled (h : Replays stop p r) (hk : c.kind = .prepare)
    (hkey : c.key ∈ stop.ledger.applied) : Replays stop (p.apply c).1 (r.apply c).1 := by
  have hmoves : ∀ res, c.moves res = false := fun res => by simp [Command.moves, hk]
  cases hw : wellFormed c with
  | false =>
    rw [apply_prepare_malformed hk hw, apply_prepare_malformed hk hw]
    exact h
  | true =>
    have hledger := (Outcome.of_apply p c).applied
    rw [hmoves] at hledger
    have hr := apply_prepare_settled hk hw (h.ledger ▸ hkey : c.key ∈ r.ledger.applied)
    refine h.next (.of_apply p c) (.of_apply r c) (hmoves _) (fun hmem => ?_) fun _ x hx => ?_
    · have hmem' : c.key ∈ p.ledger.applied := hledger ▸ hmem.resolve_left (not_not.mpr hkey)
      rw [hr, apply_prepare_settled hk hw hmem']
      simp [hold, Finmap.lookup_insert]
    · rw [hr, hold, Finmap.lookup_insert, Option.some.injEq] at hx
      subst hx
      rfl

/-- A `COMMIT` of a transaction that is settled at the stop: in the replay it is a repetition. -/
theorem Replays.commit_settled (h : Replays stop p r) (hk : c.kind = .commit)
    (hkey : c.key ∈ stop.ledger.applied) : Replays stop (p.apply c).1 (r.apply c).1 := by
  have hp := Outcome.of_apply p c
  have hr := apply_commit_settled hk (h.ledger ▸ hkey : c.key ∈ r.ledger.applied)
  refine h.next hp (.of_apply r c) (by simp [hr, Command.moves, ApplyResult.success])
    (fun hmem => ?_) fun _ x hx => ?_
  · rw [hr, lookup_release]
    by_cases hmem' : c.key ∈ p.ledger.applied
    · rw [apply_commit_settled hk hmem', lookup_release]
    · -- only the commit that changes the balance puts the key into the ledger
      have hmem'' := hmem.resolve_left (not_not.mpr hkey)
      generalize p.apply c = q at hp hmem''
      obtain ⟨p', res⟩ := q
      cases hp with
      | refuse | again | hold | settled | vanished | drop => exact absurd hmem'' hmem'
      | moved => exact (lookup_release p c.key).symm
  · rw [hr, lookup_release] at hx
    cases hx

/-- An `ABORT`, of any transaction. -/
theorem Replays.abort (h : Replays stop p r) (hk : c.kind = .abort) :
    Replays stop (p.apply c).1 (r.apply c).1 := by
  have happly : ∀ q : Participant, q.apply c = (q.release c.key, .success false) := by
    intro q
    rw [apply, hk]
    rfl
  refine h.next (.of_apply p c) (.of_apply r c) (by simp [Command.moves, hk]) (fun _ => ?_)
    fun _ x hx => ?_
  · rw [happly, happly, lookup_release, lookup_release]
  · rw [happly, lookup_release] at hx
    cases hx

/-! ## Commands of other transactions -/

/-- A `PREPARE` of a transaction that is not settled at the stop. -/
theorem Replays.prepare_unsettled (h : Replays stop p r) (hk : c.kind = .prepare)
    (hkey : c.key ∉ stop.ledger.applied) (hkey' : c.key ∉ p.ledger.applied)
    (haccounts : ∀ a, p.store.balance a = none ↔ stop.store.balance a = none)
    (hverdict : sameVerdict stop p c = true) :
    (r.apply c).1.prepared.lookup c.key = (p.apply c).1.prepared.lookup c.key := by
  have hlookup := h.agree c.key (Or.inl hkey)
  cases hw : wellFormed c with
  | false => rw [apply_prepare_malformed hk hw, apply_prepare_malformed hk hw, hlookup]
  | true =>
    simp only [wellFormed, Bool.and_eq_true, decide_eq_true_eq] at hw
    have hhas : p.ledger.has c.key = false := decide_eq_false hkey'
    have hhas' : r.ledger.has c.key = false := decide_eq_false (h.ledger ▸ hkey)
    simp only [apply, hk, prepare, hw.1, not_le.mpr hw.2, hhas, hhas', hlookup, h.store,
      h.reserved, if_false, Bool.false_eq_true]
    cases hb : p.store.balance c.accountID with
    | none =>
      rw [(haccounts _).mp hb]
      exact hlookup
    | some b =>
      obtain ⟨b', hb'⟩ := Option.ne_none_iff_exists'.mp (mt (haccounts _).mpr (by rw [hb]; simp))
      rw [hb']
      cases hx : p.prepared.lookup c.key with
      | some x =>
        rw [hx] at hlookup
        by_cases hag : x.agrees c = true <;> simp [hag, hlookup, hx]
      | none =>
        rw [hx] at hlookup
        have hfunds : c.op = .debit ∧ b - p.reservedLocked c.accountID < c.amount ↔
            c.op = .debit ∧ b' - p.reservedOutside stop.ledger c.accountID < c.amount := by
          refine and_congr_right fun hop => ?_
          have hnew : newDebit stop p c = true := by
            simp [newDebit, hk, hop, hw.1, hw.2, hx, Ledger.has, hkey]
          rw [sameVerdict, hnew, hb, hb'] at hverdict
          simpa [short] using hverdict
        by_cases hs : c.op = .debit ∧ b - p.reservedLocked c.accountID < c.amount
        · simp only [if_pos hs, if_pos (hfunds.mp hs)]
          rw [hlookup, hx]
        · simp only [if_neg hs, if_neg (mt hfunds.mpr hs), hold, Finmap.lookup_insert]

/-- A `COMMIT` of a transaction that is not settled at the stop changes no balance in either run. -/
theorem Replays.commit_unsettled (h : Replays stop p r) (hk : c.kind = .commit)
    (hkey : c.key ∉ stop.ledger.applied)
    (hsub : (p.apply c).1.ledger.applied ⊆ stop.ledger.applied)
    (haccounts : ∀ a, p.store.balance a = none ↔ stop.store.balance a = none) :
    (r.apply c).1.prepared.lookup c.key = (p.apply c).1.prepared.lookup c.key ∧
      c.moves (r.apply c).2 = false := by
  have hlookup := h.agree c.key (Or.inl hkey)
  have hkey' : c.key ∉ p.ledger.applied :=
    fun hmem => hkey (hsub ((Outcome.of_apply p c).applied_subset hmem))
  have hhas : p.ledger.has c.key = false := decide_eq_false hkey'
  have hhas' : r.ledger.has c.key = false := decide_eq_false (h.ledger ▸ hkey)
  have hstay : c.moves (p.apply c).2 = false := by
    have happlied := (Outcome.of_apply p c).applied
    split_ifs at happlied with hmoves
    · exact absurd (hsub (happlied.2 ▸ Finset.mem_insert_self _ _)) hkey
    · exact Bool.not_eq_true _ ▸ hmoves
  simp only [apply, hk, commit, hhas, hhas', hlookup, h.store, if_false, Bool.false_eq_true]
    at hstay ⊢
  cases hx : p.prepared.lookup c.key with
  | none => simp [hlookup, hx, Command.moves, ApplyResult.failure]
  | some x =>
    rw [hx] at hstay hlookup
    by_cases hag : x.agrees c = true
    · cases hs : x.settled with
      | true => simp [hag, hs, release, Finmap.lookup_erase, Command.moves, ApplyResult.success]
      | false =>
        cases hadd : p.store.addDelta c.accountID c.delta with
        | some w => simp [hag, hs, hadd, Command.moves, hk, ApplyResult.success] at hstay
        | none =>
          have hadd' : stop.store.addDelta c.accountID c.delta = none := by
            rw [Store.addDelta_eq_none_iff, ← haccounts]
            exact Store.addDelta_eq_none_iff.mp hadd
          simp [hag, hs, hadd', release, Finmap.lookup_erase, Command.moves, ApplyResult.failure]
    · simp [hag, hlookup, hx, Command.moves, ApplyResult.failure]

/-- **One command**: the replay stays with the first run. -/
theorem Replays.step (h : Replays stop p r)
    (hsub : (p.apply c).1.ledger.applied ⊆ stop.ledger.applied)
    (haccounts : ∀ a, p.store.balance a = none ↔ stop.store.balance a = none)
    (hverdict : sameVerdict stop p c = true) : Replays stop (p.apply c).1 (r.apply c).1 := by
  have hp := Outcome.of_apply p c
  have hr := Outcome.of_apply r c
  cases hk : c.kind with
  | prepare =>
    by_cases hkey : c.key ∈ stop.ledger.applied
    · exact h.prepare_settled hk hkey
    · have hkey' : c.key ∉ p.ledger.applied := fun hmem => hkey (hsub (hp.applied_subset hmem))
      have hlookup := h.prepare_unsettled hk hkey hkey' haccounts hverdict
      exact h.next hp hr (by simp [Command.moves, hk]) (fun _ => hlookup) (absurd · hkey)
  | commit =>
    by_cases hkey : c.key ∈ stop.ledger.applied
    · exact h.commit_settled hk hkey
    · obtain ⟨hlookup, hmoves⟩ := h.commit_unsettled hk hkey hsub haccounts
      exact h.next hp hr hmoves (fun _ => hlookup) (absurd · hkey)
  | abort => exact h.abort hk

/-! ## The whole log -/

/-- No key has left the ledger, and no account has appeared or disappeared. -/
structure Precedes (p q : Participant) : Prop where
  applied : p.ledger.applied ⊆ q.ledger.applied
  accounts : ∀ a, p.store.balance a = none ↔ q.store.balance a = none

theorem Precedes.refl (p : Participant) : Precedes p p := ⟨subset_rfl, fun _ => Iff.rfl⟩

theorem Precedes.trans {q : Participant} (h : Precedes p q) (h' : Precedes q r) : Precedes p r :=
  ⟨h.applied.trans h'.applied, fun a => (h.accounts a).trans (h'.accounts a)⟩

theorem precedes_apply (p : Participant) (c : Command) : Precedes p (p.apply c).1 := by
  have hout := Outcome.of_apply p c
  refine ⟨hout.applied_subset, fun a => ?_⟩
  have hstore := hout.store
  split_ifs at hstore
  · obtain ⟨v, hadd⟩ := hstore
    exact (Store.balance_addDelta_eq_none_iff hadd).symm
  · rw [hstore]

theorem precedes_run {ok : Participant → Command → Bool} {log : List Command}
    (hrun : Run Participant.step ok p log stop) : Precedes p stop := by
  refine hrun.relates (I := fun _ => True) Precedes.refl (fun _ _ _ => Precedes.trans)
    (fun _ _ _ _ _ _ => trivial) (fun q c q' _ _ hs => ?_) trivial
  obtain rfl := Option.some.inj hs
  exact precedes_apply q c

/-- A replay of the whole log leads to the stop. -/
theorem Replays.run {q : Participant} {log : List Command} (hq : q = stop)
    (hrun : Run Participant.step (replayable stop) p log q) (h : Replays stop p r) :
    r.applyLog log = stop := by
  induction hrun generalizing r with
  | nil s =>
    subst hq
    have hprepared : r.prepared = s.prepared :=
      Finmap.ext_lookup fun k => h.agree k (Classical.em _).symm
    calc r = ⟨r.store, r.ledger, r.prepared⟩ := rfl
      _ = s := by rw [h.store, h.ledger, hprepared]
  | cons hok hs hrest ih =>
    have hnext := precedes_run hrest
    have hnow := precedes_run (.cons hok hs hrest)
    rw [hq] at hnext hnow
    obtain rfl := Option.some.inj hs
    rw [replayable, Bool.and_eq_true] at hok
    exact ih hq (h.step hnext.applied hnow.accounts hok.1)

/-- The ledger in memory is the one that the file holds. -/
def Durable (p : Participant) : Prop :=
  charEnds.Whole p.ledger.file ∧ openLedger p.ledger.file = some p.ledger

theorem durable_step (h : p.Durable) (hok : readBack p c = true) : (p.apply c).1.Durable := by
  have hout := Outcome.of_apply p c
  unfold readBack at hok
  generalize p.apply c = q at hout hok
  obtain ⟨p', res⟩ := q
  cases hout with
  | refuse | again | hold | settled | vanished | drop => exact h
  | moved r v store hk hkey hr hadd =>
    have hrec : Ledger.recordable c.key c.source c.target c.op c.amount = true := by
      simpa [Command.moves, hk, ApplyResult.success] using hok
    exact ⟨Ledger.whole_record _, Ledger.openLedger_record h.1 h.2 hrec⟩

theorem durable_run {log : List Command} {q : Participant}
    (hrun : Run Participant.step (replayable stop) p log q) (h : p.Durable) : q.Durable := by
  refine hrun.invariant (fun s c s' hs hok hstep => ?_) h
  obtain rfl := Option.some.inj hstep
  rw [replayable, Bool.and_eq_true] at hok
  exact durable_step hs hok.2

/-- A participant that has been started on the files of `stop` begins a replay. -/
theorem Replays.start (store : Store) (l : Ledger) :
    Replays stop (newParticipant store l) (newParticipant stop.store stop.ledger) :=
  ⟨rfl, rfl, fun _ _ => rfl, fun k _ x hx => by simp [newParticipant] at hx⟩

theorem applyLog_of_run {ok : Participant → Command → Bool} {log : List Command}
    (hrun : Run Participant.step ok p log stop) : p.applyLog log = stop := by
  induction hrun with
  | nil => rfl
  | cons _ hs _ ih =>
    obtain rfl := Option.some.inj hs
    exact ih

/-- **Restart and replay**: if the commands before the stop are decided in the replay as they were
at first and their records are read back, then the bank that is started again and applies the log
from its first slot is, after the stop and after every further command, the bank that never stopped:
balances, ledger and reservations are the same. -/
theorem replay_eq {store : Store} {l : Ledger} {log : List Command}
    (hl : (newParticipant store l).Durable)
    (hrun : Run Participant.step (replayable stop) (newParticipant store l) log stop) :
    ∃ fresh, stop.restart = some fresh ∧
      ∀ rest, fresh.applyLog (log ++ rest) = (newParticipant store l).applyLog (log ++ rest) := by
  have hopen := (durable_run hrun hl).2
  have hstart : Replays stop (newParticipant store l) (newParticipant stop.store stop.ledger) :=
    .start store l
  refine ⟨newParticipant stop.store stop.ledger, by rw [restart, hopen]; rfl, fun rest => ?_⟩
  have hfresh := hstart.run rfl hrun
  have honce := applyLog_of_run hrun
  unfold applyLog at hfresh honce ⊢
  rw [List.foldl_append, List.foldl_append, hfresh, honce]

/-! ## Replayed logs -/

/-- A bank with one account. -/
def oneAccount : Participant := newParticipant [⟨"alice", "", "", "X", 10⟩] ⟨[], ∅⟩

/-- A debit that is held and one that is paid, with a transfer that is aborted. -/
def calmLog : List Command :=
  [⟨.prepare, "1-debit", .debit, "alice", "bob", 4⟩,
    ⟨.prepare, "2-debit", .debit, "alice", "bob", 6⟩,
    ⟨.prepare, "3-credit", .credit, "alice", "bob", 5⟩,
    ⟨.commit, "1-debit", .debit, "alice", "bob", 4⟩,
    ⟨.abort, "3-credit", .credit, "alice", "bob", 5⟩]

theorem replay_eq_calm :
    ∃ stop fresh, Run Participant.step (replayable stop) oneAccount calmLog stop ∧
      stop.restart = some fresh ∧ stop.store.balance "alice" = some 6 ∧
      ∀ rest, fresh.applyLog (calmLog ++ rest) = oneAccount.applyLog (calmLog ++ rest) := by
  let stop := oneAccount.applyLog calmLog
  have hrun : Run Participant.step (replayable stop) oneAccount calmLog stop :=
    .of_exec (by decide +kernel)
  obtain ⟨fresh, hfresh, heq⟩ := replay_eq ⟨Or.inl rfl, by decide +kernel⟩ hrun
  exact ⟨stop, fresh, hrun, hfresh, by decide +kernel, heq⟩

/-- A debit is refused, and then the account is credited. -/
def creditedLater : List Command :=
  [⟨.prepare, "1-debit", .debit, "alice", "bob", 50⟩,
    ⟨.prepare, "2-credit", .credit, "alice", "bob", 100⟩,
    ⟨.commit, "2-credit", .credit, "alice", "bob", 100⟩]

/-- In the replay the debit is not refused: its reservation is held by the bank that was started
again, and by no other. A commit of it then changes the balance at this replica only. -/
theorem replay_ne :
    ∃ fresh, (oneAccount.applyLog creditedLater).restart = some fresh ∧
      (oneAccount.applyLog creditedLater).prepared.lookup "1-debit" = none ∧
      (fresh.applyLog creditedLater).prepared.lookup "1-debit" =
        some ⟨.debit, "alice", "bob", 50, false⟩ ∧
      ∃ rest, (oneAccount.applyLog (creditedLater ++ rest)).store.balance "alice" = some 110 ∧
        (fresh.applyLog (creditedLater ++ rest)).store.balance "alice" = some 60 := by
  refine ⟨newParticipant (oneAccount.applyLog creditedLater).store
    (oneAccount.applyLog creditedLater).ledger, ?_, ?_, ?_,
    [⟨.commit, "1-debit", .debit, "alice", "bob", 50⟩], ?_, ?_⟩ <;> decide +kernel

end Participant

end PaxosPayments.Bank
