import PaxosPayments.Bank.Replay
import Mathlib.Algebra.Order.BigOperators.Group.Finset

/-!
# Reservations prevent overdrafts

The first of the two invariants that `twopc.go` states for a participant: a debit is prepared only
against what is left of the balance after all outstanding reservations, so that commits of prepared
debits cannot overdraw. `Covered` is the invariant. It is kept by every command, whatever its key,
amount and accounts are (`Covered.apply`), and so it holds after every sequence of commands
(`no_overdraft`).

Two facts about single commands carry the proof. A new reservation of a debit is covered by the
balance (`prepare_cases`), and a commit that changes a balance finds the reservation of exactly its
own details (`lookup_of_moves`), so that balance and reservations shrink by the same amount.
-/

namespace PaxosPayments.Bank

/-- The rows after `AddDelta`: those of before, and the first one of the account. -/
theorem Store.mem_addDelta {s s' : Store} {id : String} {delta v : ℚ} {a : Account}
    (h : s.addDelta id delta = some (v, s')) (ha : a ∈ s') :
    a ∈ s ∨ s'.balance id = some a.balance := by
  induction s generalizing s' with
  | nil => simp [addDelta] at h
  | cons b rest ih =>
    by_cases hb : b.id = id
    · simp only [addDelta, hb, ne_eq, not_true_eq_false, if_false, Option.some.injEq,
        Prod.mk.injEq] at h
      obtain ⟨-, rfl⟩ := h
      rcases List.mem_cons.mp ha with rfl | ha
      · right
        simp [balance]
      · exact Or.inl (List.mem_cons_of_mem _ ha)
    · rw [addDelta_cons_ne hb] at h
      obtain ⟨⟨v', rows⟩, hrows, heq⟩ := Option.map_eq_some_iff.mp h
      obtain ⟨rfl, rfl⟩ := Prod.mk.inj heq
      rcases List.mem_cons.mp ha with rfl | ha
      · exact Or.inl List.mem_cons_self
      · rcases ih hrows ha with hold | hnew
        · exact Or.inl (List.mem_cons_of_mem _ hold)
        · right
          simpa [balance, hb] using hnew

theorem Store.mem_of_balance {s : Store} {id : String} {b : ℚ} (h : s.balance id = some b) :
    ∃ a ∈ s, a.balance = b := by
  induction s with
  | nil => simp [balance] at h
  | cons a rest ih =>
    by_cases ha : a.id = id
    · exact ⟨a, List.mem_cons_self, by simpa [balance, ha] using h⟩
    · obtain ⟨a', ha', hbal⟩ := ih (by simpa [balance, ha] using h)
      exact ⟨a', List.mem_cons_of_mem _ ha', hbal⟩

namespace Participant

variable {p : Participant} {c : Command}

/-! ## Single commands -/

/-- **What a `PREPARE` adds to the table**: nothing, a reservation of a settled transaction, or a
new reservation that is covered if it is a debit. -/
theorem prepare_cases (hk : c.kind = .prepare) :
    (p.apply c).1 = p ∨
      0 < c.amount ∧ (p.apply c).1 = p.hold c.key (c.reservation true) ∨
      0 < c.amount ∧ p.prepared.lookup c.key = none ∧
        (p.apply c).1 = p.hold c.key (c.reservation false) ∧
        ∃ b, p.store.balance c.accountID = some b ∧
          (c.op = .debit → p.reservedLocked c.accountID + c.amount ≤ b) := by
  cases hw : wellFormed c with
  | false => exact Or.inl (apply_prepare_malformed hk hw p)
  | true =>
    simp only [wellFormed, Bool.and_eq_true, decide_eq_true_eq] at hw
    obtain ⟨hself, hamount⟩ := hw
    rw [apply, hk]
    simp only [prepare, if_neg hself, if_neg (not_le.mpr hamount)]
    cases hs : p.ledger.has c.key with
    | true => exact Or.inr (Or.inl ⟨hamount, rfl⟩)
    | false =>
      cases hb : p.store.balance c.accountID with
      | none => exact Or.inl rfl
      | some b =>
        cases hr : p.prepared.lookup c.key with
        | some r =>
          left
          by_cases hag : r.agrees c = true <;> simp [hag]
        | none =>
          by_cases hfunds : c.op = .debit ∧ b - p.reservedLocked c.accountID < c.amount
          · left
            simp [hfunds]
          · right
            right
            refine ⟨hamount, rfl, by simp [hfunds], b, rfl, fun hop => ?_⟩
            have henough := not_lt.mp fun hlt => hfunds ⟨hop, hlt⟩
            linarith

/-- A reservation of the same details that is not settled is the one the command asks for. -/
theorem eq_reservation {r : Reservation} (hag : r.agrees c = true) (hs : r.settled = false) :
    r = c.reservation false := by
  simp only [Reservation.agrees, Bool.and_eq_true, decide_eq_true_eq] at hag
  obtain ⟨⟨⟨hop, haccount⟩, hcounter⟩, hamount⟩ := hag
  simp [Command.reservation, ← hop, ← haccount, ← hcounter, ← hamount, ← hs]

/-- **A commit that changes a balance finds the reservation of its own details.** -/
theorem lookup_of_moves (h : c.moves (p.apply c).2 = true) :
    p.prepared.lookup c.key = some (c.reservation false) := by
  have hk : c.kind = .commit := by
    by_contra hk
    simp [Command.moves, hk] at h
  rw [apply, hk] at h
  simp only [commit] at h
  split_ifs at h
  · simp [Command.moves, ApplyResult.success] at h
  · cases hr : p.prepared.lookup c.key with
    | none => simp [hr, Command.moves, ApplyResult.failure] at h
    | some r =>
      rw [hr] at h
      by_cases hag : r.agrees c = true
      · cases hs : r.settled with
        | true => simp [hag, hs, Command.moves, ApplyResult.success] at h
        | false => rw [eq_reservation hag hs]
      · simp [hag, Command.moves, ApplyResult.failure] at h

theorem reservedLocked_hold (p : Participant) (key : String) (r : Reservation) (id : String) :
    (p.hold key r).reservedLocked id = r.withheld id + (p.release key).reservedLocked id :=
  total_insert _ _ _ _

theorem reservedLocked_release (p : Participant) (key id : String) :
    p.reservedLocked id = share (fun _ r => r.withheld id) p.prepared key +
      (p.release key).reservedLocked id :=
  total_erase _ _ _

/-! ## The invariant -/

/-- Every balance covers the outstanding debits of its account, reservations are positive, and no
row of the file is negative. -/
structure Covered (p : Participant) : Prop where
  funds : ∀ id b, p.store.balance id = some b → p.reservedLocked id ≤ b
  positive : ∀ k r, p.prepared.lookup k = some r → 0 < r.amount
  rows : ∀ a ∈ p.store, 0 ≤ a.balance

theorem Covered.start {store : Store} (l : Ledger) (hrows : ∀ a ∈ store, 0 ≤ a.balance) :
    (newParticipant store l).Covered := by
  refine ⟨fun id b hb => ?_, fun k r hr => ?_, hrows⟩
  · obtain ⟨a, ha, rfl⟩ := Store.mem_of_balance hb
    exact hrows a ha
  · simp [newParticipant] at hr

theorem Covered.share_nonneg (h : p.Covered) (id key : String) :
    0 ≤ share (fun _ r => Reservation.withheld id r) p.prepared key := by
  cases hr : p.prepared.lookup key with
  | none => rw [share_of_lookup_none hr]
  | some r =>
    rw [share_of_lookup_some hr, Reservation.withheld]
    split_ifs
    · exact (h.positive key r hr).le
    · exact le_rfl

theorem Covered.reserved_nonneg (h : p.Covered) (id : String) : 0 ≤ p.reservedLocked id := by
  rw [reservedLocked, total_eq_sum]
  exact Finset.sum_nonneg fun key _ => h.share_nonneg id key

theorem Covered.release_le (h : p.Covered) (key id : String) :
    (p.release key).reservedLocked id ≤ p.reservedLocked id := by
  rw [p.reservedLocked_release key id]
  exact le_add_of_nonneg_left (h.share_nonneg id key)

theorem Covered.release (h : p.Covered) (key : String) : (p.release key).Covered := by
  refine ⟨fun id b hb => (h.release_le key id).trans (h.funds id b hb), fun k r hr => ?_, h.rows⟩
  by_cases hk : k = key
  · subst hk
    simp [Participant.release, Finmap.lookup_erase] at hr
  · exact h.positive k r (by rwa [Participant.release, Finmap.lookup_erase_ne hk] at hr)

/-- A reservation may be added when it is positive and what it withholds is left of the balance. -/
theorem Covered.hold (h : p.Covered) {key : String} {r : Reservation} (hpos : 0 < r.amount)
    (hfunds : ∀ id b, p.store.balance id = some b →
      r.withheld id + (p.release key).reservedLocked id ≤ b) : (p.hold key r).Covered := by
  refine ⟨fun id b hb => ?_, fun k x hx => ?_, h.rows⟩
  · rw [reservedLocked_hold]
    exact hfunds id b hb
  · by_cases hk : k = key
    · rw [hk, Participant.hold, Finmap.lookup_insert, Option.some.injEq] at hx
      rwa [← hx]
    · rw [Participant.hold, Finmap.lookup_insert_of_ne _ hk] at hx
      exact h.positive k x hx

theorem Covered.prepare (h : p.Covered) (hk : c.kind = .prepare) : (p.apply c).1.Covered := by
  rcases prepare_cases hk with heq | ⟨hpos, heq⟩ | ⟨hpos, hnone, heq, b, hb, hfunds⟩ <;> rw [heq]
  · exact h
  · refine h.hold hpos fun id b hb => ?_
    have hzero : (c.reservation true).withheld id = 0 := by
      simp [Reservation.withheld, Command.reservation]
    rw [hzero, zero_add]
    exact (h.release_le c.key id).trans (h.funds id b hb)
  · refine h.hold hpos fun id b' hb' => ?_
    have hrelease := h.release_le c.key id
    by_cases hid : c.op = .debit ∧ c.accountID = id
    · obtain ⟨hop, rfl⟩ := hid
      obtain rfl : b = b' := Option.some.inj (hb.symm.trans hb')
      have hwithheld : (c.reservation false).withheld c.accountID = c.amount := by
        simp [Reservation.withheld, Command.reservation, hop]
      rw [hwithheld]
      linarith [hfunds hop]
    · have hzero : (c.reservation false).withheld id = 0 := by
        rw [Reservation.withheld, if_neg]
        exact fun hcond => hid ⟨hcond.1, hcond.2.1⟩
      rw [hzero, zero_add]
      exact hrelease.trans (h.funds id b' hb')

/-- A debit that is committed was covered. -/
theorem Covered.debit_le (h : p.Covered) (hmoves : c.moves (p.apply c).2 = true)
    (hop : c.op = .debit) {b : ℚ} (hb : p.store.balance c.accountID = some b) :
    (p.release c.key).reservedLocked c.accountID + c.amount ≤ b := by
  have hfunds := h.funds c.accountID b hb
  rw [p.reservedLocked_release c.key, share_of_lookup_some (lookup_of_moves hmoves)] at hfunds
  have hwithheld : (c.reservation false).withheld c.accountID = c.amount := by
    simp [Reservation.withheld, Command.reservation, hop]
  rw [hwithheld] at hfunds
  linarith

/-- A commit that changes a balance gives up its reservation. -/
theorem prepared_of_moves (hmoves : c.moves (p.apply c).2 = true) :
    (p.apply c).1.prepared = (p.release c.key).prepared := by
  have hout := Outcome.of_apply p c
  generalize p.apply c = q at hout hmoves
  obtain ⟨p', res⟩ := q
  cases hout with
  | refuse e he | vanished e he => simp [Command.moves, he] at hmoves
  | again hk | hold hk | drop hk => simp [Command.moves, hk] at hmoves
  | settled => simp [Command.moves] at hmoves
  | moved => rfl

theorem Covered.moved (h : p.Covered) (hmoves : c.moves (p.apply c).2 = true) :
    (p.apply c).1.Covered := by
  have hpos : 0 < c.amount := h.positive c.key _ (lookup_of_moves hmoves)
  have hprepared := prepared_of_moves hmoves
  have hstore := (Outcome.of_apply p c).store
  rw [if_pos hmoves] at hstore
  obtain ⟨v, hadd⟩ := hstore
  have hreserved : ∀ id, (p.apply c).1.reservedLocked id = (p.release c.key).reservedLocked id :=
    fun id => by rw [reservedLocked, hprepared, ← reservedLocked]
  have hfunds : ∀ id b, (p.apply c).1.store.balance id = some b →
      (p.apply c).1.reservedLocked id ≤ b := by
    intro id b hb
    rw [hreserved]
    rw [Store.balance_addDelta hadd] at hb
    split_ifs at hb with hid
    · obtain ⟨old, hold, rfl⟩ := Option.map_eq_some_iff.mp hb
      subst hid
      cases hop : c.op with
      | debit =>
        have hcovered := h.debit_le hmoves hop hold
        simp only [Command.delta, hop]
        linarith
      | credit =>
        have hle := (h.release_le c.key c.accountID).trans (h.funds _ old hold)
        simp only [Command.delta, hop]
        linarith
    · exact (h.release_le c.key id).trans (h.funds id b hb)
  refine ⟨hfunds, fun k r hr => ?_, fun a ha => ?_⟩
  · rw [hprepared] at hr
    exact (h.release c.key).positive k r hr
  · rcases Store.mem_addDelta hadd ha with hold | hnew
    · exact h.rows a hold
    · have hnonneg := (h.release c.key).reserved_nonneg c.accountID
      rw [← hreserved] at hnonneg
      exact hnonneg.trans (hfunds c.accountID a.balance hnew)

/-- **Every command keeps the balances above the reservations.** -/
theorem Covered.apply (h : p.Covered) (c : Command) : (p.apply c).1.Covered := by
  by_cases hmoves : c.moves (p.apply c).2 = true
  · exact h.moved hmoves
  · cases hk : c.kind with
    | prepare => exact h.prepare hk
    | commit =>
      have hout := Outcome.of_apply p c
      generalize p.apply c = q at hout hmoves
      obtain ⟨p', res⟩ := q
      cases hout with
      | refuse | again => exact h
      | settled | vanished | drop => exact h.release c.key
      | hold hk' => rw [hk] at hk'; cases hk'
      | moved => simp [Command.moves, hk] at hmoves
    | abort =>
      rw [Participant.apply, hk]
      exact h.release c.key

theorem Covered.applyLog (h : p.Covered) (log : List Command) : (p.applyLog log).Covered := by
  induction log generalizing p with
  | nil => exact h
  | cons c log ih => exact ih (h.apply c)

/-- **No overdraft**: after any sequence of commands, of any keys, operations, accounts and amounts,
every balance covers the outstanding debits of its account, no row of the accounts file is negative,
and a debit that is committed next is covered by its balance. -/
theorem no_overdraft {store : Store} (hrows : ∀ a ∈ store, 0 ≤ a.balance) (l : Ledger)
    (log : List Command) :
    let p := (newParticipant store l).applyLog log
    (∀ id b, p.store.balance id = some b → p.reservedLocked id ≤ b) ∧
      (∀ a ∈ p.store, 0 ≤ a.balance) ∧
      ∀ c : Command, c.op = .debit → c.moves (p.apply c).2 = true →
        ∃ b, p.store.balance c.accountID = some b ∧ c.amount ≤ b := by
  intro p
  have h : p.Covered := (Covered.start l hrows).applyLog log
  refine ⟨h.funds, h.rows, fun c hop hmoves => ?_⟩
  have hstore := (Outcome.of_apply p c).store
  rw [if_pos hmoves] at hstore
  obtain ⟨v, hadd⟩ := hstore
  have hsome : p.store.balance c.accountID ≠ none := fun hnone => by
    rw [Store.addDelta_eq_none_iff.mpr hnone] at hadd
    cases hadd
  obtain ⟨b, hb⟩ := Option.ne_none_iff_exists'.mp hsome
  have hcovered := h.debit_le hmoves hop hb
  have hnonneg := (h.release c.key).reserved_nonneg c.accountID
  exact ⟨b, hb, by linarith⟩

theorem no_overdraft_alice :
    let p := (newParticipant [⟨"alice", "", "", "X", 100⟩] ⟨[], ∅⟩).applyLog
      [⟨.prepare, "1-debit", .debit, "alice", "bob", 60⟩,
        ⟨.prepare, "2-debit", .debit, "alice", "bob", 60⟩,
        ⟨.commit, "1-debit", .debit, "alice", "bob", 60⟩]
    (∀ id b, p.store.balance id = some b → p.reservedLocked id ≤ b) ∧
      (∀ a ∈ p.store, 0 ≤ a.balance) ∧
      ∀ c : Command, c.op = .debit → c.moves (p.apply c).2 = true →
        ∃ b, p.store.balance c.accountID = some b ∧ c.amount ≤ b :=
  no_overdraft (by simp) _ _

end Participant

end PaxosPayments.Bank
