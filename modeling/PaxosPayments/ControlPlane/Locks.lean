import PaxosPayments.ControlPlane.Machine

/-!
# The locks of a shard

What holds of every `Machine` that has been reached from an empty one by commands of any kind. The
locks and the prepared transactions are two views of one table, locked accounts exist, and there are
no more accounts than allowed (`Coherent`). A vote is a guarantee: while a transaction is prepared
no other command touches its account or its lock, so that its commit can be applied (`vote_kept`).
-/

namespace PaxosPayments.ControlPlane

namespace Machine

/-- The machine after a sequence of commands. -/
def applyAll : Machine → List Command → Machine
  | m, [] => m
  | m, c :: cs => applyAll (m.applyLocked c).1 cs

variable {m m' : Machine} {c p : Command} {r : Result} {tx k : String}

/-- What every command of a sequence keeps holds after it. -/
theorem applyAll_invariant {I : Machine → Prop} {cs : List Command} (h : I m)
    (hstep : ∀ m, ∀ c ∈ cs, I m → I (m.applyLocked c).1) : I (m.applyAll cs) := by
  induction cs generalizing m with
  | nil => exact h
  | cons c cs ih =>
    refine ih (hstep m c List.mem_cons_self h) fun m' c' hc' => ?_
    exact hstep m' c' (List.mem_cons_of_mem _ hc')

theorem checkLocked_eq_none_iff {keys : List String} : m.checkLocked keys = none ↔
    ∀ k ∈ keys, k ∈ m.balances ∧ m.locks.lookup k = none := by
  induction keys with
  | nil => simp [checkLocked]
  | cons k keys ih =>
    rw [List.forall_mem_cons, ← ih, checkLocked, ← Finmap.lookup_isSome]
    cases m.balances.lookup k with
    | none => simp
    | some v => cases m.locks.lookup k <;> simp

/-! ## Accounts -/

theorem keys_setBalance (m : Machine) (key : String) (v : BitVec 64) :
    (m.setBalance key v).balances.keys = insert key m.balances.keys := by
  ext k
  rw [Finmap.mem_keys, Finset.mem_insert, Finmap.mem_keys]
  exact Finmap.mem_insert

theorem keys_setBalance_of_mem {key : String} (h : key ∈ m.balances) (v : BitVec 64) :
    (m.setBalance key v).balances.keys = m.balances.keys := by
  rw [keys_setBalance, Finset.insert_eq_of_mem (Finmap.mem_keys.mpr h)]

theorem lookup_setBalance_of_ne {key : String} (h : k ≠ key) (v : BitVec 64) :
    (m.setBalance key v).balances.lookup k = m.balances.lookup k :=
  Finmap.lookup_insert_of_ne _ h

/-- A put makes a new account only below the limit. -/
theorem card_keys_put (hop : c.op = .put) (hsize : m.balances.keys.card ≤ m.maxKeys)
    (hmax : 0 < m.maxKeys) : (m.applyLocked c).1.balances.keys.card ≤ m.maxKeys := by
  unfold applyLocked
  rw [hop]
  cases m.locks.lookup c.key with
  | some tx => exact hsize
  | none =>
    dsimp only
    split_ifs with hfull
    · exact hsize
    · by_cases hmem : c.key ∈ m.balances
      · rw [keys_setBalance_of_mem hmem]
        exact hsize
      · have hroom : m.balances.keys.card < m.maxKeys := by
          by_contra hge
          exact hfull ⟨Finmap.lookup_eq_none.mpr hmem, hmax, by omega⟩
        have hcard := Finset.card_insert_le c.key m.balances.keys
        rw [keys_setBalance]
        omega

/-! ## The representation invariant -/

/-- **The representation invariant.** -/
structure Coherent (m : Machine) : Prop where
  /-- Locks and prepared transactions are inverse to each other. -/
  locks : ∀ k tx, m.locks.lookup k = some tx ↔ ∃ p, m.prepared.lookup tx = some p ∧ p.key = k
  /-- A locked account exists. -/
  mem : ∀ k tx, m.locks.lookup k = some tx → k ∈ m.balances
  size : 0 < m.maxKeys → m.balances.keys.card ≤ m.maxKeys

/-- What becomes of the locks when an account that is free is held for a new transaction. -/
theorem locks_hold (h : ∀ k tx, m.locks.lookup k = some tx ↔
      ∃ p, m.prepared.lookup tx = some p ∧ p.key = k)
    (hnew : m.prepared.lookup c.tx = none) (hfree : m.locks.lookup c.key = none) (k tx : String) :
    (m.hold c).locks.lookup k = some tx ↔
      ∃ p, (m.hold c).prepared.lookup tx = some p ∧ p.key = k := by
  unfold hold
  dsimp only
  by_cases htx : tx = c.tx
  · subst htx
    rw [Finmap.lookup_insert]
    by_cases hk : k = c.key
    · subst hk
      simp
    · rw [Finmap.lookup_insert_of_ne _ hk, h]
      simp [hnew, Ne.symm hk]
  · rw [Finmap.lookup_insert_of_ne _ htx]
    by_cases hk : k = c.key
    · subst hk
      have hnone := h c.key tx
      rw [hfree] at hnone
      rw [Finmap.lookup_insert, ← hnone]
      simp [Ne.symm htx]
    · rw [Finmap.lookup_insert_of_ne _ hk]
      exact h k tx

/-- What becomes of the locks when a transaction lets go of its account. -/
theorem locks_release (h : ∀ k tx, m.locks.lookup k = some tx ↔
      ∃ p, m.prepared.lookup tx = some p ∧ p.key = k)
    (hp : m.prepared.lookup tx = some p) (k other : String) :
    (m.release p tx).locks.lookup k = some other ↔
      ∃ q, (m.release p tx).prepared.lookup other = some q ∧ q.key = k := by
  have hheld : m.locks.lookup p.key = some tx := (h p.key tx).mpr ⟨p, hp, rfl⟩
  unfold release
  dsimp only
  by_cases htx : other = tx
  · subst htx
    rw [Finmap.lookup_erase]
    by_cases hk : k = p.key
    · subst hk
      simp
    · rw [Finmap.lookup_erase_ne hk, h]
      simp [hp, Ne.symm hk]
  · rw [Finmap.lookup_erase_ne htx]
    by_cases hk : k = p.key
    · subst hk
      have hnone := h p.key other
      rw [hheld] at hnone
      rw [Finmap.lookup_erase, ← hnone]
      simp [Ne.symm htx]
    · rw [Finmap.lookup_erase_ne hk]
      exact h k other

namespace Coherent

theorem new (maxKeys : ℕ) : Coherent (Machine.new maxKeys ∅) where
  locks k tx := by simp [Machine.new]
  mem k tx h := by simp [Machine.new] at h
  size _ := by simp [Machine.new]

theorem prepared_of_locks (h : m.Coherent) (hk : m.locks.lookup k = some tx) :
    ∃ p, m.prepared.lookup tx = some p ∧ p.key = k :=
  (h.locks k tx).mp hk

theorem locks_of_prepared (h : m.Coherent) (hp : m.prepared.lookup tx = some p) :
    m.locks.lookup p.key = some tx :=
  (h.locks p.key tx).mpr ⟨p, hp, rfl⟩

theorem mem_of_prepared (h : m.Coherent) (hp : m.prepared.lookup tx = some p) :
    p.key ∈ m.balances :=
  h.mem _ _ (h.locks_of_prepared hp)

/-- Balances may be changed, as long as no account is made. -/
theorem setBalance (h : m.Coherent) {key : String} (hmem : key ∈ m.balances) (v : BitVec 64) :
    (m.setBalance key v).Coherent where
  locks := h.locks
  mem k tx hk := Finmap.mem_insert.mpr (Or.inr (h.mem k tx hk))
  size hmax := by
    rw [keys_setBalance_of_mem hmem]
    exact h.size hmax

theorem hold (h : m.Coherent) (hnew : m.prepared.lookup c.tx = none)
    (hfree : m.checkLocked [c.key] = none) : (m.hold c).Coherent := by
  obtain ⟨hmem, hfree⟩ := checkLocked_eq_none_iff.mp hfree c.key List.mem_cons_self
  refine ⟨locks_hold h.locks hnew hfree, fun k tx hk => ?_, h.size⟩
  by_cases hkey : k = c.key
  · exact hkey ▸ hmem
  · exact h.mem k tx ((Finmap.lookup_insert_of_ne _ hkey).symm.trans hk)

theorem release (h : m.Coherent) (hp : m.prepared.lookup tx = some p) :
    (m.release p tx).Coherent := by
  refine ⟨locks_release h.locks hp, fun k other hk => ?_, h.size⟩
  by_cases hkey : k = p.key
  · exact hkey ▸ h.mem_of_prepared hp
  · exact h.mem k other ((Finmap.lookup_erase_ne hkey).symm.trans hk)

theorem decide (h : m.Coherent) (tx : String) (op : Op) : (m.decide tx op).Coherent :=
  ⟨h.locks, h.mem, h.size⟩

theorem abortLocked (h : m.Coherent) (tx : String) : (m.abortLocked tx).Coherent := by
  unfold Machine.abortLocked
  cases hp : m.prepared.lookup tx with
  | none =>
    dsimp only [Option.elim]
    split_ifs
    · exact h
    · exact h.decide tx .abort
  | some p =>
    dsimp only [Option.elim]
    split_ifs
    · exact h.release hp
    · exact (h.release hp).decide tx .abort

end Coherent

end Machine

namespace Effect

variable {m m' : Machine} {c : Command} {r : Result} {tx : String}

/-- A command keeps the invariant, as long as a put minds the limit. -/
theorem coherent (h : Effect m c m' r) (hm : m.Coherent)
    (hput : c.op = .put → 0 < m.maxKeys → m'.balances.keys.card ≤ m.maxKeys) : m'.Coherent := by
  cases h with
  | refuse | again => exact hm
  | put hop =>
    exact ⟨hm.locks, fun k tx hk => Finmap.mem_insert.mpr (Or.inr (hm.mem k tx hk)), hput hop⟩
  | transfer hop r hr hfree =>
    have hmem : ∀ k ∈ [c.key, c.toKey], k ∈ m.balances := fun k hk =>
      (Machine.checkLocked_eq_none_iff.mp hfree k hk).1
    refine (hm.setBalance (hmem _ (by simp)) _).setBalance ?_ _
    exact Finmap.mem_insert.mpr (Or.inr (hmem _ (by simp)))
  | prepare hop hnew hopen hfree => exact hm.hold hnew hfree
  | commit hop p hp => exact ((hm.setBalance (hm.mem_of_prepared hp) _).release hp).decide _ _
  | abort => exact hm.abortLocked c.tx

theorem maxKeys (h : Effect m c m' r) : m'.maxKeys = m.maxKeys := by
  cases h with
  | refuse | again | put | transfer | prepare | commit => rfl
  | abort =>
    unfold Machine.abortLocked
    cases m.prepared.lookup c.tx <;> dsimp only [Option.elim] <;> split_ifs <;> rfl

end Effect

namespace Machine

variable {m m' : Machine} {c p : Command} {r : Result} {tx k : String}

/-- **Every command keeps the invariant.** -/
theorem Coherent.applyLocked (h : m.Coherent) (c : Command) : (m.applyLocked c).1.Coherent :=
  (effect m c).coherent h fun hop hmax => card_keys_put hop (h.size hmax) hmax

theorem Coherent.applyAll (h : m.Coherent) (cs : List Command) : (m.applyAll cs).Coherent :=
  applyAll_invariant h fun _ c _ hm => hm.applyLocked c

theorem maxKeys_applyAll (m : Machine) (cs : List Command) :
    (m.applyAll cs).maxKeys = m.maxKeys := by
  refine applyAll_invariant (I := fun m' => m'.maxKeys = m.maxKeys) rfl fun m' c _ hm => ?_
  exact (effect m' c).maxKeys.trans hm

/-- **The tables of a shard fit together** in every state that commands can lead to. -/
theorem tables_coherent (maxKeys : ℕ) (cs : List Command) :
    let m := (new maxKeys ∅).applyAll cs
    (∀ k tx, m.locks.lookup k = some tx ↔ ∃ p, m.prepared.lookup tx = some p ∧ p.key = k) ∧
      (∀ tx p, m.prepared.lookup tx = some p → ∃! k, m.locks.lookup k = some tx) ∧
      (∀ k tx, m.locks.lookup k = some tx → k ∈ m.balances) ∧
      (0 < maxKeys → m.balances.keys.card ≤ maxKeys) := by
  intro m
  have hm : m.Coherent := (Coherent.new maxKeys).applyAll cs
  have hmax : m.maxKeys = maxKeys := maxKeys_applyAll _ cs
  refine ⟨hm.locks, fun tx p hp => ?_, hm.mem, hmax ▸ hm.size⟩
  refine ⟨p.key, hm.locks_of_prepared hp, fun k hk => ?_⟩
  obtain ⟨q, hq, rfl⟩ := hm.prepared_of_locks hk
  rw [Option.some.inj (hq.symm.trans hp)]

/-! ## A vote is a guarantee -/

/-- The transaction of the prepare `p` holds its account, which has the balance `v`. -/
structure Holds (m : Machine) (p : Command) (v : BitVec 64) : Prop where
  coherent : m.Coherent
  prepared : m.prepared.lookup p.tx = some p
  decided : m.decided.lookup p.tx = none
  balance : m.balances.lookup p.key = some v

theorem Holds.locks {v : BitVec 64} (h : m.Holds p v) : m.locks.lookup p.key = some p.tx :=
  h.coherent.locks_of_prepared h.prepared

end Machine

/-- **No other command touches an account that is held**, or the transaction that holds it. -/
theorem Effect.holds {m m' : Machine} {c p : Command} {r : Result} {v : BitVec 64}
    (h : Effect m c m' r) (hm : m.Holds p v) (hcoherent : m'.Coherent)
    (hother : c.op = .commit ∨ c.op = .abort → c.tx ≠ p.tx) : m'.Holds p v := by
  have hfree : ∀ k, m.locks.lookup k = none → p.key ≠ k := by
    rintro k hk rfl
    exact absurd (hm.locks.symm.trans hk) nofun
  cases h with
  | refuse | again => exact hm
  | put _ hkey =>
    refine ⟨hcoherent, hm.prepared, hm.decided, ?_⟩
    rw [Machine.lookup_setBalance_of_ne (hfree _ hkey)]
    exact hm.balance
  | transfer _ _ _ hkeys =>
    have hne : ∀ k ∈ [c.key, c.toKey], p.key ≠ k := fun k hk =>
      hfree k (Machine.checkLocked_eq_none_iff.mp hkeys k hk).2
    refine ⟨hcoherent, hm.prepared, hm.decided, ?_⟩
    rw [Machine.lookup_setBalance_of_ne (hne _ (by simp)),
      Machine.lookup_setBalance_of_ne (hne _ (by simp))]
    exact hm.balance
  | prepare _ hnew =>
    have hne : p.tx ≠ c.tx := by
      intro heq
      have hprepared := hm.prepared
      rw [heq, hnew] at hprepared
      cases hprepared
    exact ⟨hcoherent, (Finmap.lookup_insert_of_ne _ hne).trans hm.prepared, hm.decided, hm.balance⟩
  | commit hop q hq =>
    have hne : p.tx ≠ c.tx := (hother (Or.inl hop)).symm
    have hkey : p.key ≠ q.key := by
      intro heq
      have hlock := hm.coherent.locks_of_prepared hq
      rw [← heq, hm.locks] at hlock
      exact hne (Option.some.inj hlock)
    refine ⟨hcoherent, (Finmap.lookup_erase_ne hne).trans hm.prepared,
      (Finmap.lookup_insert_of_ne _ hne).trans hm.decided, ?_⟩
    exact (Machine.lookup_setBalance_of_ne hkey _).trans hm.balance
  | abort hop =>
    have hne : p.tx ≠ c.tx := (hother (Or.inr hop)).symm
    obtain ⟨hprepared, hdecided⟩ := Machine.lookup_abortLocked_of_ne (m := m) hne
    refine ⟨hcoherent, hprepared.trans hm.prepared, hdecided.trans hm.decided, ?_⟩
    rw [Machine.balances_abortLocked]
    exact hm.balance

namespace Machine

variable {m m' : Machine} {c p : Command} {r : Result} {tx k : String} {v : BitVec 64}

namespace Holds

/-- A prepare that is answered with OK and takes the lock. -/
theorem of_prepare (hm : m.Coherent) (hop : c.op = .prepare)
    (hok : (m.applyLocked c).2.code = .ok) (hnew : m.locks.lookup c.key ≠ some c.tx) :
    ∃ v, m.balances.lookup c.key = some v ∧ (m.applyLocked c).1.Holds c v := by
  have hcoherent := hm.applyLocked c
  have heffect := effect m c
  generalize (m.applyLocked c).1 = m', (m.applyLocked c).2 = r at hok hcoherent heffect
  cases heffect with
  | refuse r hr => exact absurd hok hr
  | again r hr hc =>
    simp only [hop, reduceCtorEq, true_and, false_and, or_false, false_or] at hc
    exact absurd (hm.locks_of_prepared hc) hnew
  | prepare _ _ hopen hfree =>
    obtain ⟨hmem, -⟩ := checkLocked_eq_none_iff.mp hfree c.key List.mem_cons_self
    obtain ⟨v, hv⟩ := Finmap.mem_iff.mp hmem
    exact ⟨v, hv, hcoherent, Finmap.lookup_insert _, hopen, hv⟩
  | put h | transfer h | commit h | abort h => simp [hop] at h

theorem applyAll (h : m.Holds p v) {cs : List Command}
    (hcs : ∀ c ∈ cs, c.op = .commit ∨ c.op = .abort → c.tx ≠ p.tx) : (m.applyAll cs).Holds p v := by
  refine applyAll_invariant (I := fun m => m.Holds p v) h fun m c hc hm => ?_
  exact (effect m c).holds hm (hm.coherent.applyLocked c) (hcs c hc)

theorem commit (h : m.Holds p v) (hop : c.op = .commit) (htx : c.tx = p.tx) :
    (m.applyLocked c).2.code = .ok ∧
      (m.applyLocked c).1.balances.lookup p.key = some (v + p.amount) := by
  have hbalance : m.balance p.key = v := by rw [Machine.balance, h.balance, Option.getD_some]
  have heq : m.applyLocked c = m.commitLocked p.tx := by rw [applyLocked, hop, htx]
  have hopen : m.decided.lookup p.tx ≠ some .commit := by simp [h.decided]
  rw [heq, commitLocked, if_neg hopen, h.prepared]
  refine ⟨rfl, ?_⟩
  change (m.balances.insert p.key (m.balance p.key + p.amount)).lookup p.key = _
  rw [Finmap.lookup_insert, hbalance]

theorem abort (h : m.Holds p v) (hop : c.op = .abort) (htx : c.tx = p.tx) :
    (m.applyLocked c).1.balances.lookup p.key = some v ∧
      (m.applyLocked c).1.locks.lookup p.key = none := by
  have heq : (m.applyLocked c).1 = m.abortLocked p.tx := by rw [applyLocked, hop, htx]
  rw [heq, balances_abortLocked]
  refine ⟨h.balance, ?_⟩
  have hopen : (m.release p p.tx).decided.lookup p.tx ≠ some .commit := by
    simp [release, h.decided]
  unfold abortLocked
  rw [h.prepared]
  dsimp only [Option.elim]
  rw [if_neg hopen]
  exact Finmap.lookup_erase _ _

end Holds

/-- **A YES vote is a guarantee.** When a prepare is answered with OK and takes the lock of its
account, the balance and the lock stay until the transaction is ended, its commit is then answered
with OK and adds the delta, and its abort frees the account. -/
theorem vote_kept (maxKeys : ℕ) (earlier later : List Command) (c : Command) (hop : c.op = .prepare)
    (hok : (((new maxKeys ∅).applyAll earlier).applyLocked c).2.code = .ok)
    (hnew : ((new maxKeys ∅).applyAll earlier).locks.lookup c.key ≠ some c.tx)
    (hlater : ∀ d ∈ later, d.op = .commit ∨ d.op = .abort → d.tx ≠ c.tx) :
    let m := (new maxKeys ∅).applyAll earlier
    let m' := (m.applyLocked c).1.applyAll later
    ∃ v, m.balances.lookup c.key = some v ∧ m'.balances.lookup c.key = some v ∧
      m'.locks.lookup c.key = some c.tx ∧
      (∀ d, d.op = .commit → d.tx = c.tx → (m'.applyLocked d).2.code = .ok ∧
        (m'.applyLocked d).1.balances.lookup c.key = some (v + c.amount)) ∧
      ∀ d, d.op = .abort → d.tx = c.tx →
        (m'.applyLocked d).1.balances.lookup c.key = some v ∧
          (m'.applyLocked d).1.locks.lookup c.key = none := by
  intro m m'
  have hm : m.Coherent := (Coherent.new maxKeys).applyAll earlier
  obtain ⟨v, hv, hheld⟩ := Holds.of_prepare hm hop hok hnew
  have hm' : m'.Holds c v := hheld.applyAll hlater
  exact ⟨v, hv, hm'.balance, hm'.locks, fun d hd htx => hm'.commit hd htx,
    fun d hd htx => hm'.abort hd htx⟩

/-- Two accounts. -/
def twoAccounts : List Command := [⟨.put, "a", "", 100, ""⟩, ⟨.put, "b", "", 0, ""⟩]

/-- A debit of 30. -/
def debitThirty : Command := ⟨.prepare, "a", "", -30, "tx1"⟩

/-- Commands that try to get at the account in the meantime. -/
def meanwhile : List Command :=
  [⟨.put, "a", "", 5, ""⟩, ⟨.transfer, "a", "b", 100, ""⟩, ⟨.prepare, "a", "", -80, "tx2"⟩,
    ⟨.commit, "", "", 0, "tx2"⟩, debitThirty]

theorem vote_kept_debit :
    let m := (new 0 ∅).applyAll twoAccounts
    let m' := (m.applyLocked debitThirty).1.applyAll meanwhile
    m.balances.lookup "a" = some 100 ∧ m'.balances.lookup "a" = some 100 ∧
      ∀ c, c.op = .commit → c.tx = "tx1" → (m'.applyLocked c).2.code = .ok ∧
        (m'.applyLocked c).1.balances.lookup "a" = some (100 + debitThirty.amount) := by
  intro m m'
  obtain ⟨v, hv, hv', -, hcommit, -⟩ := vote_kept 0 twoAccounts meanwhile debitThirty rfl
    (by decide +kernel) (by decide +kernel) (by decide +kernel)
  have hstart : m.balances.lookup "a" = some 100 := by decide +kernel
  obtain rfl : v = 100 := Option.some.inj (hv.symm.trans hstart)
  exact ⟨hstart, hv', hcommit⟩

end Machine

end PaxosPayments.ControlPlane
