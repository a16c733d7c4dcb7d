import PaxosPayments.Foundations.Runs
import PaxosPayments.ControlPlane.Decisions

/-!
# The arithmetic of a shard

Balances are 64 bits wide and wrap. A transfer checks that there is enough to take, and a prepare
that the balance does not become negative, but the first does not look at what the other account can
hold, and the second computes the sum that it checks with the same 64 bits (`arithmetic_wraps`).

A transfer or a commit that is answered with OK changes the balances as integers do exactly if the
sum that it adds up fits, and then no balance becomes negative that was not (`arithmetic_exact`).
The check of a prepare needs no condition of its own: it is wrong only for a balance that is
negative already, and an account does not change while it is held (`Funded`).
-/

namespace PaxosPayments.ControlPlane

/-- The commands that the control plane issues: transfers of at least 1 between different accounts,
and prepares of such an amount with either sign. -/
def Command.issued (c : Command) : Bool :=
  match c.op with
  | .put | .get | .commit | .abort => true
  | .transfer => 0 < c.amount.toInt && c.key ≠ c.toKey
  | .prepare => c.amount.toInt ≠ 0 && c.amount.toInt ≠ -2 ^ 63
  | .other _ => false

namespace Machine

/-- The machine applies a command. -/
def step (m : Machine) (c : Command) : Option Machine := some (m.applyLocked c).1

/-- A transfer that is made and a commit that is applied find an account that can hold the sum. -/
def fits (m : Machine) (c : Command) : Bool :=
  match c.op with
  | .transfer => m.checkLocked [c.key, c.toKey] ≠ none || (m.balance c.key).slt c.amount ||
      !(m.balance c.toKey).saddOverflow c.amount
  | .commit => m.decided.lookup c.tx = some .commit ||
      (m.prepared.lookup c.tx).all fun p => !(m.balance p.key).saddOverflow p.amount
  | .put | .get | .prepare | .abort | .other _ => true

/-- A command that the control plane issues. -/
def issues (_ : Machine) (c : Command) : Bool := c.issued

/-- The balances change as integers do: by a transfer that is made, by a commit that is applied. A
commit of a transaction that is committed already changes nothing. -/
def ExactChange (m : Machine) (c : Command) (m' : Machine) : Prop :=
  match c.op with
  | .transfer => ∀ k, (m'.balance k).toInt = (m.balance k).toInt +
      (if k = c.toKey then c.amount.toInt else 0) - (if k = c.key then c.amount.toInt else 0)
  | .commit =>
    if m.decided.lookup c.tx = some .commit then m' = m
    else ∃ p, m.prepared.lookup c.tx = some p ∧ ∀ k,
      (m'.balance k).toInt = (m.balance k).toInt + if k = p.key then p.amount.toInt else 0
  | _ => True

variable {m m' : Machine} {c p : Command} {r : Result} {tx : String}

theorem balance_setBalance (m : Machine) (key k : String) (v : BitVec 64) :
    (m.setBalance key v).balance k = if k = key then v else m.balance k := by
  unfold balance setBalance
  dsimp only
  split_ifs with hk
  · rw [hk, Finmap.lookup_insert, Option.getD_some]
  · rw [Finmap.lookup_insert_of_ne _ hk]

/-- A sum is that of the integers exactly if it fits. -/
theorem toInt_add_iff {b a : BitVec 64} :
    (b + a).toInt = b.toInt + a.toInt ↔ b.saddOverflow a = false := by
  refine ⟨fun h => ?_, fun h => BitVec.toInt_add_of_not_saddOverflow (by simp [h])⟩
  have hlt : (b + a).toInt < 2 ^ 63 := BitVec.toInt_lt
  have hle : -2 ^ 63 ≤ (b + a).toInt := BitVec.le_toInt _
  rw [h] at hlt hle
  simp only [BitVec.saddOverflow, Bool.or_eq_false_iff, decide_eq_false_iff_not]
  omega

/-- Enough is there to take. -/
theorem not_ssubOverflow_of_funds {b a : BitVec 64} (hfunds : b.slt a = false)
    (ha : 0 < a.toInt) : ¬b.ssubOverflow a = true := by
  have hle : a.toInt ≤ b.toInt := by simpa [BitVec.slt] using hfunds
  have hlt : b.toInt < 2 ^ 63 := BitVec.toInt_lt
  simp only [BitVec.ssubOverflow, Bool.or_eq_true, decide_eq_true_eq]
  omega

theorem toInt_sub_of_funds {b a : BitVec 64} (hfunds : b.slt a = false) (ha : 0 < a.toInt) :
    (b - a).toInt = b.toInt - a.toInt ∧ 0 ≤ (b - a).toInt := by
  have hle : a.toInt ≤ b.toInt := by simpa [BitVec.slt] using hfunds
  have hsub : (b - a).toInt = b.toInt - a.toInt :=
    BitVec.toInt_sub_of_not_ssubOverflow (not_ssubOverflow_of_funds hfunds ha)
  exact ⟨hsub, by omega⟩

/-- The tables fit together, and a balance that is not negative covers the prepared debit. -/
structure Funded (m : Machine) : Prop where
  coherent : m.Coherent
  decisive : m.Decisive
  named : ∀ tx p, m.prepared.lookup tx = some p → p.tx = tx
  funds : ∀ tx p, m.prepared.lookup tx = some p → 0 ≤ (m.balance p.key).toInt →
    0 ≤ (m.balance p.key).toInt + p.amount.toInt

namespace Funded

theorem new (maxKeys : ℕ) : Funded (Machine.new maxKeys ∅) where
  coherent := .new maxKeys
  decisive := .new maxKeys
  named tx p h := by simp [Machine.new] at h
  funds tx p h := by simp [Machine.new] at h

theorem holds (h : m.Funded) (hp : m.prepared.lookup tx = some p) :
    m.Holds p (m.balance p.key) := by
  have htx := h.named tx p hp
  subst htx
  obtain ⟨v, hv⟩ := Finmap.mem_iff.mp (h.coherent.mem_of_prepared hp)
  refine ⟨h.coherent, hp, h.decisive.exclusive p.tx (by simp [hp]), ?_⟩
  rw [balance, hv, Option.getD_some]

end Funded

theorem Holds.balance_eq {v : BitVec 64} (h : m.Holds p v) : m.balance p.key = v := by
  rw [Machine.balance, h.balance, Option.getD_some]

end Machine

namespace Effect

variable {m m' : Machine} {c p : Command} {r : Result} {tx : String}

/-- A transaction that is prepared after a command was prepared before, with the same balance of its
account, or the command has just prepared it. -/
theorem prepared_origin (h : Effect m c m' r) (hm : m.Funded) (hcoherent : m'.Coherent)
    (hp : m'.prepared.lookup tx = some p) :
    m.prepared.lookup tx = some p ∧ m'.balance p.key = m.balance p.key ∨
      c.op = .prepare ∧ p = c ∧ tx = c.tx ∧ m.prepared.lookup tx = none ∧
        m.decided.lookup tx = none ∧ m.checkLocked [c.key] = none ∧
        (c.amount.slt 0 && (m.balance c.key + c.amount).slt 0) = false ∧
        m'.balance c.key = m.balance c.key := by
  have hkept : m.prepared.lookup tx = some p → (c.op = .commit ∨ c.op = .abort → c.tx ≠ p.tx) →
      m.prepared.lookup tx = some p ∧ m'.balance p.key = m.balance p.key := fun hold hother =>
    ⟨hold, (h.holds (hm.holds hold) hcoherent hother).balance_eq⟩
  by_cases hne : c.op.ofTx = true → c.tx ≠ tx
  · have hold : m.prepared.lookup tx = some p := (h.lookup_of_ne hne).1 ▸ hp
    refine Or.inl (hkept hold fun hop => ?_)
    rw [hm.named tx p hold]
    refine hne ?_
    rcases hop with hop | hop <;> rw [hop] <;> rfl
  push Not at hne
  obtain ⟨hop, rfl⟩ := hne
  cases h with
  | refuse | again => exact Or.inl ⟨hp, rfl⟩
  | prepare hprepare hnew hopen hfree hfunds =>
    obtain rfl : c = p := Option.some.inj ((Finmap.lookup_insert _).symm.trans hp)
    exact Or.inr ⟨hprepare, rfl, rfl, hnew, hopen, hfree, hfunds, rfl⟩
  | commit => exact absurd (hp.symm.trans (Finmap.lookup_erase _ _)) nofun
  | abort => exact absurd (hp.symm.trans (Machine.prepared_abortLocked m c.tx)) nofun
  | put h | transfer h => simp [h, Op.ofTx] at hop

end Effect

namespace Machine

variable {m m' : Machine} {c p : Command} {r : Result} {tx : String}

/-- The check of a prepare is right about a balance that is not negative: a debit from it cannot
wrap. -/
theorem nonneg_of_check {b a : BitVec 64} (hcheck : (a.slt 0 && (b + a).slt 0) = false)
    (hb : 0 ≤ b.toInt) : 0 ≤ b.toInt + a.toInt := by
  by_cases ha : 0 ≤ a.toInt
  · omega
  · have hneg : a.slt 0 = true := by simpa [BitVec.slt] using ha
    have hsum : (b + a).toInt = b.toInt + a.toInt := by
      have hlt : b.toInt < 2 ^ 63 := BitVec.toInt_lt
      have hle : -2 ^ 63 ≤ a.toInt := BitVec.le_toInt _
      rw [toInt_add_iff]
      simp only [BitVec.saddOverflow, Bool.or_eq_false_iff, decide_eq_false_iff_not]
      omega
    rw [hneg, Bool.true_and] at hcheck
    rw [← hsum]
    simpa [BitVec.slt] using hcheck

theorem Funded.applyLocked (h : m.Funded) (c : Command) : (m.applyLocked c).1.Funded := by
  have hcoherent := h.coherent.applyLocked c
  have hprepared : ∀ tx p, (m.applyLocked c).1.prepared.lookup tx = some p →
      p.tx = tx ∧ (0 ≤ ((m.applyLocked c).1.balance p.key).toInt →
        0 ≤ ((m.applyLocked c).1.balance p.key).toInt + p.amount.toInt) := by
    intro tx p hp
    rcases (effect m c).prepared_origin h hcoherent hp with ⟨hold, hbalance⟩ |
      ⟨hop, rfl, rfl, hnew, hopen, hfree, hcheck, hbalance⟩
    · rw [hbalance]
      exact ⟨h.named tx p hold, h.funds tx p hold⟩
    · rw [hbalance]
      exact ⟨rfl, nonneg_of_check hcheck⟩
  exact ⟨hcoherent, h.decisive.applyLocked c, fun tx p hp => (hprepared tx p hp).1,
    fun tx p hp => (hprepared tx p hp).2⟩

/-- The balances after a transfer that is made. -/
theorem balance_transfer {a : BitVec 64} {fromKey toKey : String} (hne : fromKey ≠ toKey)
    (k : String) :
    ((m.setBalance fromKey (m.balance fromKey - a)).setBalance toKey
        ((m.setBalance fromKey (m.balance fromKey - a)).balance toKey + a)).balance k =
      if k = toKey then m.balance toKey + a
      else if k = fromKey then m.balance fromKey - a else m.balance k := by
  rw [balance_setBalance, balance_setBalance, balance_setBalance, if_neg hne.symm]

end Machine

namespace Effect

variable {m m' : Machine} {c p : Command} {r : Result} {tx : String}

/-- A transfer that is made changes balances as integers exactly if the sum fits. -/
theorem exact_transfer (h : Effect m c m' r) (hissued : c.issued = true) (hok : r.code = .ok)
    (hop : c.op = .transfer) :
    (m.ExactChange c m' ↔ m.fits c = true) ∧
      (m.fits c = true → ∀ k, 0 ≤ (m.balance k).toInt → 0 ≤ (m'.balance k).toInt) := by
  obtain ⟨hamount, hne⟩ : 0 < c.amount.toInt ∧ c.key ≠ c.toKey := by
    simpa [Command.issued, hop] using hissued
  cases h with
  | refuse r hr => exact absurd hok hr
  | again r _ hc =>
    simp [hop] at hc
  | transfer _ r _ hfree hfunds =>
    have hfits : m.fits c = true ↔ (m.balance c.toKey + c.amount).toInt =
        (m.balance c.toKey).toInt + c.amount.toInt := by
      rw [Machine.toInt_add_iff]
      simp [Machine.fits, hop, hfree, hfunds]
    obtain ⟨hdebit, hrest⟩ := Machine.toInt_sub_of_funds hfunds hamount
    unfold Machine.ExactChange
    rw [hop, hfits]
    refine ⟨⟨fun hexact => ?_, fun hcredit k => ?_⟩, fun hcredit k hk => ?_⟩
    · have hto := hexact c.toKey
      rw [Machine.balance_transfer hne, if_pos rfl, if_pos rfl, if_neg hne.symm] at hto
      omega
    · rw [Machine.balance_transfer hne]
      by_cases hto : k = c.toKey
      · have hfrom : k ≠ c.key := fun h => hne (h.symm.trans hto)
        rw [if_pos hto, if_pos hto, if_neg hfrom, hcredit, hto]
        omega
      · rw [if_neg hto, if_neg hto]
        by_cases hfrom : k = c.key
        · rw [if_pos hfrom, if_pos hfrom, hdebit, hfrom]
          omega
        · rw [if_neg hfrom, if_neg hfrom]
          omega
    · rw [Machine.balance_transfer hne]
      split_ifs with hto hfrom
      · rw [hto] at hk
        omega
      · exact hrest
      · exact hk
  | put h | prepare h | commit h | abort h => simp [hop] at h

/-- A commit that is answered with OK changes the balance as an integer exactly if the sum fits. -/
theorem exact_commit (h : Effect m c m' r) (hm : m.Funded) (hok : r.code = .ok)
    (hop : c.op = .commit) :
    (m.ExactChange c m' ↔ m.fits c = true) ∧
      (m.fits c = true → ∀ k, 0 ≤ (m.balance k).toInt → 0 ≤ (m'.balance k).toInt) := by
  unfold Machine.ExactChange
  rw [hop]
  cases h with
  | refuse r hr => exact absurd hok hr
  | again r _ hc =>
    have hdone : m.decided.lookup c.tx = some .commit := by simpa [hop] using hc
    simp [Machine.fits, hop, hdone]
  | commit _ p hp hopen =>
    have hfits : m.fits c = true ↔
        (m.balance p.key + p.amount).toInt = (m.balance p.key).toInt + p.amount.toInt := by
      rw [Machine.toInt_add_iff]
      simp [Machine.fits, hop, hp, hopen]
    have hbalance : ∀ k,
        (((m.setBalance p.key (m.balance p.key + p.amount)).release p c.tx).decide c.tx
          .commit).balance k = if k = p.key then m.balance p.key + p.amount else m.balance k :=
      fun k => Machine.balance_setBalance m p.key k _
    rw [hfits]
    dsimp only
    rw [if_neg hopen]
    refine ⟨⟨fun hexact => ?_, fun hsum => ⟨p, hp, fun k => ?_⟩⟩, fun hsum k hk => ?_⟩
    · obtain ⟨p', hp', hall⟩ := hexact
      obtain rfl := Option.some.inj (hp.symm.trans hp')
      have hkey := hall p.key
      rwa [hbalance, if_pos rfl, if_pos rfl] at hkey
    · rw [hbalance]
      split_ifs with hkey
      · rw [hsum, hkey]
      · omega
    · rw [hbalance]
      split_ifs with hkey
      · rw [hkey] at hk
        rw [hsum]
        exact hm.funds c.tx p hp hk
      · exact hk
  | put h | transfer h | prepare h | abort h => simp [hop] at h

/-- A command that is refused changes nothing. -/
theorem eq_of_refused (h : Effect m c m' r) (hr : r.code ≠ .ok) : m' = m := by
  cases h with
  | refuse | again => rfl
  | transfer _ r hok | commit _ _ _ _ r hok => exact absurd hok hr
  | put | prepare | abort => exact absurd rfl hr

/-- The other commands, a put apart, leave the balances alone. -/
theorem balance_eq (h : Effect m c m' r) (hput : c.op ≠ .put) (htransfer : c.op ≠ .transfer)
    (hcommit : c.op ≠ .commit) (k : String) : m'.balance k = m.balance k := by
  cases h with
  | refuse | again | prepare => rfl
  | put h => exact absurd h hput
  | transfer h => exact absurd h htransfer
  | commit h => exact absurd h hcommit
  | abort => rw [Machine.balance, Machine.balances_abortLocked, Machine.balance]

end Effect

namespace Machine

variable {m m' : Machine} {c p : Command} {r : Result} {tx : String}

/-- **The arithmetic of a shard is exact where the sums fit, and only there.** After any commands of
the control plane, a transfer or commit that is answered with OK changes the balances as integers do
exactly if it `fits`; and no command that fits, a put apart, makes a balance negative that was
not. -/
theorem arithmetic_exact {maxKeys : ℕ} {cs : List Command}
    (h : Run step issues (new maxKeys ∅) cs m) (hc : c.issued = true) :
    let m' := (m.applyLocked c).1
    ((m.applyLocked c).2.code = .ok → (m.ExactChange c m' ↔ m.fits c = true)) ∧
      (m.fits c = true → c.op ≠ .put →
        ∀ k, 0 ≤ (m.balance k).toInt → 0 ≤ (m'.balance k).toInt) := by
  intro m'
  have hm : m.Funded := by
    refine h.invariant (fun m c m' hI _ hs => ?_) (Funded.new maxKeys)
    obtain rfl := Option.some.inj hs
    exact hI.applyLocked c
  have heffect : Effect m c m' (m.applyLocked c).2 := effect m c
  by_cases hok : (m.applyLocked c).2.code = .ok
  · by_cases htransfer : c.op = .transfer
    · obtain ⟨hexact, hnonneg⟩ := heffect.exact_transfer hc hok htransfer
      exact ⟨fun _ => hexact, fun hfits _ => hnonneg hfits⟩
    by_cases hcommit : c.op = .commit
    · obtain ⟨hexact, hnonneg⟩ := heffect.exact_commit hm hok hcommit
      exact ⟨fun _ => hexact, fun hfits _ => hnonneg hfits⟩
    · refine ⟨fun _ => ?_, fun _ hput k hk => ?_⟩
      · -- neither a transfer nor a commit: nothing is added up
        unfold ExactChange fits
        cases hop : c.op <;> simp_all
      · rwa [heffect.balance_eq hput htransfer hcommit]
  · rw [heffect.eq_of_refused hok]
    exact ⟨fun h => absurd h hok, fun _ _ k hk => hk⟩

/-- An account takes 5 from another one, and 7 in two phases. -/
def smallAmounts : List Command :=
  [⟨.put, "a", "", 100, ""⟩, ⟨.put, "b", "", -3, ""⟩, ⟨.transfer, "a", "b", 5, ""⟩,
    ⟨.prepare, "b", "", 7, "tx1"⟩]

theorem arithmetic_exact_small :
    ∃ m, Run step issues (new 0 ∅) smallAmounts m ∧
      m.decided.lookup "tx1" = none ∧
      m.ExactChange ⟨.commit, "", "", 0, "tx1"⟩ (m.applyLocked ⟨.commit, "", "", 0, "tx1"⟩).1 := by
  obtain ⟨m, hrun, hm⟩ := Run.exists_of_exec_map step issues (new 0 ∅) smallAmounts
    (fun m => (m.fits ⟨.commit, "", "", 0, "tx1"⟩, m.decided.lookup "tx1",
      (m.applyLocked ⟨.commit, "", "", 0, "tx1"⟩).2.code)) (true, none, .ok) (by decide +kernel)
  simp only [Prod.mk.injEq] at hm
  obtain ⟨hfits, hopen, hok⟩ := hm
  exact ⟨m, hrun, hopen, ((arithmetic_exact hrun (by decide)).1 hok).mpr hfits⟩

/-- A transfer of 1 to an account that is full. -/
def fullAccount : List Command :=
  [⟨.put, "a", "", 1, ""⟩, ⟨.put, "b", "", 0x7fffffffffffffff, ""⟩]

/-- A credit of 1 to an account that is full, in two phases. -/
def fullCredit : List Command := fullAccount ++ [⟨.prepare, "b", "", 1, "tx1"⟩]

/-- A debit of 1 from an account at the other end. -/
def lowDebit : List Command :=
  [⟨.put, "a", "", 0x8000000000000000, ""⟩, ⟨.prepare, "a", "", -1, "tx1"⟩]

/-- **The arithmetic wraps**: a transfer and a commit make a full account negative, and a debit that
the check has let through makes a negative one full. All are answered with OK. -/
theorem arithmetic_wraps :
    (∃ m, Run step issues (new 0 ∅) fullAccount m ∧
      (m.applyLocked ⟨.transfer, "a", "b", 1, ""⟩).2.code = .ok ∧
      (m.balance "b").toInt = 2 ^ 63 - 1 ∧
      ((m.applyLocked ⟨.transfer, "a", "b", 1, ""⟩).1.balance "b").toInt = -2 ^ 63) ∧
    (∃ m, Run step issues (new 0 ∅) fullCredit m ∧
      (m.applyLocked ⟨.commit, "", "", 0, "tx1"⟩).2.code = .ok ∧
      (m.balance "b").toInt = 2 ^ 63 - 1 ∧
      ((m.applyLocked ⟨.commit, "", "", 0, "tx1"⟩).1.balance "b").toInt = -2 ^ 63) ∧
    ∃ m, Run step issues (new 0 ∅) lowDebit m ∧
      (m.applyLocked ⟨.commit, "", "", 0, "tx1"⟩).2.code = .ok ∧
      (m.balance "a").toInt = -2 ^ 63 ∧
      ((m.applyLocked ⟨.commit, "", "", 0, "tx1"⟩).1.balance "a").toInt = 2 ^ 63 - 1 := by
  have hend : ∀ (cs : List Command) (c : Command) (k : String) (before after : ℤ),
      (exec step issues (new 0 ∅) cs).map (fun m => ((m.applyLocked c).2.code,
        (m.balance k).toInt, ((m.applyLocked c).1.balance k).toInt)) = some (.ok, before, after) →
      ∃ m, Run step issues (new 0 ∅) cs m ∧ (m.applyLocked c).2.code = .ok ∧
        (m.balance k).toInt = before ∧ ((m.applyLocked c).1.balance k).toInt = after := by
    intro cs c k before after h
    obtain ⟨m, hrun, hm⟩ := Run.exists_of_exec_map _ _ _ _ _ _ h
    obtain ⟨hok, hm⟩ := Prod.mk.inj hm
    obtain ⟨hbefore, hafter⟩ := Prod.mk.inj hm
    exact ⟨m, hrun, hok, hbefore, hafter⟩
  exact ⟨hend _ _ _ _ _ (by decide +kernel), hend _ _ _ _ _ (by decide +kernel),
    hend _ _ _ _ _ (by decide +kernel)⟩

end Machine

end PaxosPayments.ControlPlane
