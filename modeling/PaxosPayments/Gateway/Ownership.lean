import PaxosPayments.Gateway.Auth

/-!
# Who may debit or read an account

A call of `TransferMoney` or `CheckBalance` that passes both checks is meant to come from the owner
of the account: whoever first registered it, at the bank named then, with the password given then.
It does in the runs in which (`authorized_owner`)

* a known user is registered again only with the password on file, and not at another bank for the
  same account,
* an account that its user has left is not registered again,
* no call names a bank other than the one its caller is registered with, and
* the users file can be written.

The code asks for none of this. `Register` is public and overwrites the password of a known user,
and no check looks at the bank of a request (`account_taken`).
-/

namespace PaxosPayments.Gateway

namespace Service

/-- The first registration that claimed the account. -/
def firstClaim (s : Service) (accountID : String) : Option RegisterRequest :=
  s.registrations.find? (·.accountID = accountID)

/-- The account was claimed once and no user is registered with it now. -/
def abandoned (s : Service) (accountID : String) : Bool :=
  (s.firstClaim accountID).isSome && !s.auth.linked accountID

/-- A registration takes no user and no account over, and a call names the bank of its caller. -/
def ownershipKept (b : Bcrypt) (s : Service) : Action → Bool
  | .register _ saveErr req =>
    saveErr.isNone && !s.abandoned req.accountID &&
      (s.auth.users.lookup req.username).all fun u =>
        b.compareHashAndPassword u.passwordHash req.password &&
          (u.accountID ≠ req.accountID || u.bank = req.bankName)
  | .transferMoney md req => (s.caller md).all (·.bank = req.fromBank)
  | .checkBalance md req => (s.caller md).all (·.bank = req.bankName)
  | .authenticate _ _ | .set _ | .wait _ | .expireSessions => true

/-- What a call is about, if it has to be authorized: its method, its metadata, and the bank and the
account that it debits or reads. -/
def Action.target : Action → Option (Method × Metadata × String × String)
  | .transferMoney md req => some (.transferMoney, md, req.fromBank, req.fromAccount)
  | .checkBalance md req => some (.checkBalance, md, req.bankName, req.accountID)
  | .register _ _ _ | .authenticate _ _ | .set _ | .wait _ | .expireSessions => none

end Service

/-- Every user has the account, the bank and the password of the first registration that claimed
the account, and every session was opened with the password of its user. -/
structure Owned (b : Bcrypt) (s : Service) : Prop where
  named : ∀ name u, s.auth.users.lookup name = some u → u.username = name
  claim : ∀ name u, s.auth.users.lookup name = some u →
    ∃ r, s.firstClaim u.accountID = some r ∧ r.bankName = u.bank ∧
      ∀ p, b.compareHashAndPassword u.passwordHash p = true ↔ p = r.password
  session : ∀ token sess, s.auth.sessions token = some sess →
    ∃ u, s.auth.users.lookup sess.username = some u ∧
      b.compareHashAndPassword u.passwordHash sess.presented = true

namespace Owned

variable {b : Bcrypt} {s s' : Service}

theorem init (banks : Banks) : Owned b (Service.init banks) where
  named name u h := by simp [Service.init] at h
  claim name u h := by simp [Service.init] at h
  session token sess h := by simp [Service.init] at h

/-- Users and registrations are as before, and every session was there before. -/
theorem of_users (h : Owned b s) (husers : s'.auth.users = s.auth.users)
    (hreg : s'.registrations = s.registrations)
    (hsess : ∀ token sess, s'.auth.sessions token = some sess →
      ∃ u, s.auth.users.lookup sess.username = some u ∧
        b.compareHashAndPassword u.passwordHash sess.presented = true) : Owned b s' where
  named := husers ▸ h.named
  claim := by
    rw [husers]
    simpa only [Service.firstClaim, hreg] using h.claim
  session := husers ▸ hsess

/-- A user who is registered again keeps the password. -/
theorem password_eq (h : Owned b s) {name p p' : String} {u : Identity}
    (hu : s.auth.users.lookup name = some u)
    (hp : b.compareHashAndPassword u.passwordHash p = true)
    (hp' : b.compareHashAndPassword u.passwordHash p' = true) : p' = p := by
  obtain ⟨r, -, -, hr⟩ := h.claim name u hu
  rw [(hr p).mp hp, (hr p').mp hp']

/-- The first claim of the account of a registration that is accepted names its bank and its
password. -/
theorem claim_register (h : Owned b s) {req : RegisterRequest}
    (habandoned : s.abandoned req.accountID = false)
    (hknown : ∀ u, s.auth.users.lookup req.username = some u →
      b.compareHashAndPassword u.passwordHash req.password = true ∧
        (u.accountID = req.accountID → u.bank = req.bankName))
    (hother : s.auth.claimedByOther req.username req.accountID = false) :
    ∃ r, (s.registrations ++ [req]).find? (·.accountID = req.accountID) = some r ∧
      r.bankName = req.bankName ∧ r.password = req.password := by
  rw [List.find?_append]
  cases hclaim : s.firstClaim req.accountID with
  | none =>
    unfold Service.firstClaim at hclaim
    exact ⟨req, by simp [hclaim], rfl, rfl⟩
  | some r =>
    -- somebody has the account now, and the check of `register` leaves only the same user
    have hlinked : s.auth.linked req.accountID = true := by
      simpa [Service.abandoned, hclaim] using habandoned
    obtain ⟨name, u, hu, haccount⟩ := AuthStore.linked_iff.mp hlinked
    obtain rfl : name = req.username :=
      (h.named name u hu).symm.trans (AuthStore.username_of_not_claimedByOther hother hu haccount)
    obtain ⟨hpass, hbank⟩ := hknown u hu
    obtain ⟨r', hr', hr'bank, hr'pass⟩ := h.claim _ u hu
    rw [haccount, hclaim] at hr'
    obtain rfl := Option.some.inj hr'
    unfold Service.firstClaim at hclaim
    exact ⟨r, by simp [hclaim], hr'bank.trans (hbank haccount), ((hr'pass _).mp hpass).symm⟩

theorem register (h : Owned b s) {salt : ℕ} {req : RegisterRequest}
    (habandoned : s.abandoned req.accountID = false)
    (hknown : ∀ u, s.auth.users.lookup req.username = some u →
      b.compareHashAndPassword u.passwordHash req.password = true ∧
        (u.accountID = req.accountID → u.bank = req.bankName)) :
    Owned b (s.register b salt none req).1 := by
  rcases Service.register_cases b s salt req with hs | ⟨hash, hhash, hother, hs⟩
  · rw [hs]
    exact h
  have hcompare := b.compare_generate hhash
  rw [hs]
  refine ⟨fun name u hu => ?_, fun name u hu => ?_, fun token sess hsess => ?_⟩
  · by_cases hname : name = req.username
    · subst hname
      rw [Finmap.lookup_insert] at hu
      rw [← Option.some.inj hu]
    · rw [Finmap.lookup_insert_of_ne _ hname] at hu
      exact h.named name u hu
  · by_cases hname : name = req.username
    · subst hname
      rw [Finmap.lookup_insert] at hu
      obtain rfl := Option.some.inj hu
      obtain ⟨r, hr, hbank, hpass⟩ := h.claim_register habandoned hknown hother
      exact ⟨r, hr, hbank, hpass ▸ hcompare⟩
    · rw [Finmap.lookup_insert_of_ne _ hname] at hu
      obtain ⟨r, hr, hbank, hpass⟩ := h.claim name u hu
      unfold Service.firstClaim at hr
      exact ⟨r, by simp [Service.firstClaim, hr], hbank, hpass⟩
  · obtain ⟨u, hu, hpresented⟩ := h.session token sess hsess
    by_cases hname : sess.username = req.username
    · refine ⟨_, by rw [hname, Finmap.lookup_insert], (hcompare _).mpr ?_⟩
      exact h.password_eq hu (hknown u (hname ▸ hu)).1 hpresented
    · exact ⟨u, by rw [Finmap.lookup_insert_of_ne _ hname, hu], hpresented⟩

theorem authenticate (h : Owned b s) (drawn : Except String String) (req : AuthRequest) :
    Owned b (s.authenticate b drawn req).1 := by
  rcases Service.authenticate_cases b s drawn req with hs | ⟨u, token, hu, hpass, hs⟩
  · rw [hs]
    exact h
  rw [hs]
  refine h.of_users rfl rfl fun token' sess hsess => ?_
  by_cases ht : token' = token
  · subst ht
    dsimp only at hsess
    rw [Function.update_self] at hsess
    obtain rfl := Option.some.inj hsess
    exact ⟨u, hu, hpass⟩
  · exact h.session token' sess ((Function.update_of_ne ht ..).symm.trans hsess)

/-- **Every call keeps the owners**, when it is as `ownershipKept` says. -/
theorem step (h : Owned b s) {a : Service.Action} (hok : s.ownershipKept b a = true)
    (hs : s.step b a = some s') : Owned b s' := by
  cases a <;> obtain rfl := Option.some.inj hs
  case register salt saveErr req =>
    simp only [Service.ownershipKept, Bool.and_eq_true, Bool.not_eq_true'] at hok
    obtain ⟨⟨hsave, habandoned⟩, hknown⟩ := hok
    obtain rfl := Option.isNone_iff_eq_none.mp hsave
    refine h.register habandoned fun u hu => ?_
    rw [hu] at hknown
    simpa [imp_iff_not_or] using hknown
  case authenticate drawn req => exact h.authenticate drawn req
  case transferMoney md req =>
    obtain ⟨banks, hbanks⟩ := s.transferMoney_cases md req
    rw [hbanks]
    exact h.of_users rfl rfl h.session
  case checkBalance md req => exact h
  case set active => exact h.of_users rfl rfl h.session
  case wait d => exact h.of_users rfl rfl h.session
  case expireSessions =>
    refine h.of_users rfl rfl fun token sess hsess => h.session token sess ?_
    exact (Option.filter_eq_some_iff.mp hsess).1

end Owned

namespace Service

/-- **An authorized call comes from the first owner.** In a run whose calls are all as
`ownershipKept` says, a call that passes `authUnaryInterceptor` and `requireOwnership` debits or
reads the bank and the account of the first registration that claimed the account, and its token was
issued for the password given there. -/
theorem authorized_owner {b : Bcrypt} {banks : Banks} {acts : List Action} {s : Service}
    (h : Run (step b) (ownershipKept b) (init banks) acts s) {a : Action} {m : Method}
    {md : Metadata} {bank accountID : String} {caller : Identity}
    (ha : a.target = some (m, md, bank, accountID)) (hok : s.ownershipKept b a = true)
    (hpass : s.authorize m md accountID = .ok caller) :
    ∃ r token rest sess, s.firstClaim accountID = some r ∧ r.bankName = bank ∧
      md = some (token :: rest) ∧ s.auth.sessions token = some sess ∧
      sess.presented = r.password := by
  have hI : Owned b s :=
    h.invariant (I := Owned b) (fun _ _ _ hI hok hs => hI.step hok hs) (.init banks)
  obtain ⟨hm, hbank⟩ : publicMethods m = false ∧ (s.caller md).all (·.bank = bank) = true := by
    cases a <;> simp only [Action.target, reduceCtorEq, Option.some.injEq, Prod.mk.injEq] at ha <;>
      obtain ⟨rfl, rfl, rfl, rfl⟩ := ha <;> exact ⟨rfl, hok⟩
  obtain ⟨hcaller, rfl⟩ := authorize_eq_ok hm hpass
  obtain ⟨token, rest, sess, hmd, hsess, hu⟩ := caller_eq_some hcaller
  obtain ⟨r, hr, hrbank, hpassword⟩ := hI.claim _ caller hu
  obtain ⟨u, hu', hpresented⟩ := hI.session token sess hsess
  obtain rfl : u = caller := Option.some.inj (hu'.symm.trans hu)
  rw [hcaller] at hbank
  exact ⟨r, token, rest, sess, hr, hrbank.trans (of_decide_eq_true hbank), hmd, hsess,
    (hpassword _).mp hpresented⟩

/-! ### Concrete calls -/

/-- A package `bcrypt` that leaves passwords as they are. -/
def transparent : Bcrypt where
  generateFromPassword _ password :=
    if 72 < password.utf8ByteSize then .error "bcrypt: password length exceeds 72 bytes"
    else .ok password
  compareHashAndPassword hash password := hash = password
  dummyHash := "not-a-real-password"
  compare_generate := by
    intro salt password hash h other
    split_ifs at h
    rw [← Except.ok.inj h, decide_eq_true_eq, eq_comm]

/-- Two banks: `ACC1` is an account at the first, and `ACC2` one at the second. -/
def twoBanks : Banks :=
  (Finmap.singleton "ICICI" (Bank.newParticipant [⟨"ACC1", "varun", "", "ICICI", 500⟩]
    ⟨[], ∅⟩)).insert "SBI" (Bank.newParticipant [⟨"ACC2", "mallory", "", "SBI", 0⟩] ⟨[], ∅⟩)

/-- A user registers and logs in. -/
def login (username password bank token : String) : List Action :=
  [.register 0 none ⟨username, password, "ACC1", bank⟩,
    .authenticate (.ok token) ⟨username, password, "ACC1"⟩]

/-- A transfer between the two accounts. -/
def toSBI : TransferRequest := ⟨"T1", "ICICI", "ACC1", "SBI", "ACC2", 500⟩

theorem authorized_owner_varun :
    ∃ s caller, Run (step transparent) (ownershipKept transparent) (init twoBanks)
        (login "varun" "secret" "ICICI" "token") s ∧
      s.authorize .transferMoney (some ["token"]) "ACC1" = .ok caller ∧
      ∃ r token rest sess, s.firstClaim "ACC1" = some r ∧ r.bankName = "ICICI" ∧
        some ["token"] = some (token :: rest) ∧ s.auth.sessions token = some sess ∧
        sess.presented = r.password := by
  obtain ⟨s, hs, hend⟩ := Run.exists_of_exec_map (step transparent) (ownershipKept transparent)
    (init twoBanks) (login "varun" "secret" "ICICI" "token")
    (fun s => ((s.authorize .transferMoney (some ["token"]) "ACC1").toBool,
      s.ownershipKept transparent (.transferMoney (some ["token"]) toSBI)))
    (true, true) (by decide +kernel)
  obtain ⟨hpass, hok⟩ := Prod.mk.inj hend
  cases hauth : s.authorize .transferMoney (some ["token"]) "ACC1" with
  | error err => simp [hauth, Except.toBool] at hpass
  | ok caller => exact ⟨s, caller, hs, hauth, authorized_owner hs rfl hok hauth⟩

/-- The call of `TransferMoney` is authorized and empties the account. -/
def drains (s : Service) (token : String) : Bool :=
  (s.authorize .transferMoney (some [token]) toSBI.fromAccount).toBool &&
    (s.transferMoney (some [token]) toSBI).2 = none &&
    (s.transferMoney (some [token]) toSBI).1.banks.balance toSBI.fromBank toSBI.fromAccount = some 0

/-- **An account is taken over.** Anyone may register the name of a known user again with a password
of their own, and the account is theirs to debit. A user of an account at one bank may also debit
the account of that name at any other: nobody has registered `ACC1` at `ICICI` in the second run. -/
theorem account_taken :
    (∃ s r sess, Run (step transparent) always (init twoBanks)
        (login "varun" "secret" "ICICI" "token" ++ login "varun" "mine" "ICICI" "taken") s ∧
      s.drains "taken" = true ∧ s.firstClaim toSBI.fromAccount = some r ∧
      s.auth.sessions "taken" = some sess ∧ sess.presented ≠ r.password) ∧
    ∃ s r, Run (step transparent) always (init twoBanks) (login "mallory" "mine" "SBI" "token") s ∧
      s.drains "token" = true ∧ s.firstClaim toSBI.fromAccount = some r ∧
      r.bankName ≠ toSBI.fromBank := by
  constructor
  · obtain ⟨s, hs, hend⟩ := Run.exists_of_exec_map (step transparent) always (init twoBanks)
      (login "varun" "secret" "ICICI" "token" ++ login "varun" "mine" "ICICI" "taken")
      (fun s => (s.drains "taken", s.firstClaim toSBI.fromAccount, s.auth.sessions "taken"))
      (true, some ⟨"varun", "secret", "ACC1", "ICICI"⟩, some ⟨"varun", tokenTTL, "mine"⟩)
      (by decide +kernel)
    simp only [Prod.mk.injEq] at hend
    obtain ⟨hdrains, hclaim, hsess⟩ := hend
    exact ⟨s, _, _, hs, hdrains, hclaim, hsess, by decide⟩
  · obtain ⟨s, hs, hend⟩ := Run.exists_of_exec_map (step transparent) always (init twoBanks)
      (login "mallory" "mine" "SBI" "token")
      (fun s => (s.drains "token", s.firstClaim toSBI.fromAccount))
      (true, some ⟨"mallory", "mine", "ACC1", "SBI"⟩) (by decide +kernel)
    obtain ⟨hdrains, hclaim⟩ := Prod.mk.inj hend
    exact ⟨s, _, hs, hdrains, hclaim, by decide⟩

end Service

end PaxosPayments.Gateway
