import PaxosPayments.Foundations.Runs
import PaxosPayments.Gateway.Coordinator

/-!
# Users, sessions and the ownership check

`gateway/auth.go`, `gateway/middleware.go` and the calls of `gateway/service.go` that a customer
makes. Calls come one at a time. `Register` is public and creates or updates a user,
`Authenticate` exchanges a password for a token, and `TransferMoney` and `CheckBalance` go on only
if `authUnaryInterceptor` finds the session of their token and `requireOwnership` its account.

What the gateway draws or cannot control is part of a call: the salt of a hash, the random token,
and the error of `save`. `Service.registrations` has the registrations that succeeded, oldest
first, and `Session.presented` the password that a token was issued for; nothing reads either.
-/

namespace PaxosPayments.Gateway

/-- The package `bcrypt`: a hash accepts the password that it was generated from and no other. -/
structure Bcrypt where
  /-- The hash of a password under a salt, or the text of an error. -/
  generateFromPassword : ℕ → String → Except String String
  compareHashAndPassword : String → String → Bool
  /-- The hash that stands in for that of an unknown user. -/
  dummyHash : String
  compare_generate : ∀ {salt password hash}, generateFromPassword salt password = .ok hash →
    ∀ other, compareHashAndPassword hash other = true ↔ other = password

/-- How long a token is valid, in nanoseconds. -/
def tokenTTL : ℕ := 30 * 60 * 1000000000

/-- What the gateway knows about a registered user. -/
structure Identity where
  username : String
  passwordHash : String
  accountID : String
  bank : String
  deriving DecidableEq

/-- An issued token. -/
structure Session where
  username : String
  expiresAt : ℕ
  presented : String
  deriving DecidableEq

structure AuthStore where
  users : Finmap fun _ : String => Identity
  sessions : String → Option Session

/-- The errors of `register`. -/
inductive RegisterError
  | accountClaimed
  | other (text : String)
  deriving DecidableEq

/-- The errors of `authenticate`. -/
inductive AuthError
  | badCredentials
  | other (text : String)
  deriving DecidableEq

namespace AuthStore

variable (b : Bcrypt) (s : AuthStore)

/-- Some user is registered with the account. -/
def linked (accountID : String) : Bool :=
  decide (∃ name ∈ s.users.keys, (s.users.lookup name).any (·.accountID = accountID))

/-- The account belongs to a user of another name. -/
def claimedByOther (username accountID : String) : Bool :=
  decide (∃ name ∈ s.users.keys, (s.users.lookup name).any fun existing =>
    existing.accountID = accountID && existing.username ≠ username)

/-- `register`, with the salt that is drawn and the error of `save`. The user is in the map also
when `save` fails. -/
def register (salt : ℕ) (saveErr : Option String) (username password accountID bank : String) :
    AuthStore × Option RegisterError :=
  if username = "" ∨ password = "" then
    (s, some (.other "username and password are required"))
  else
    match b.generateFromPassword salt password with
    | .error text => (s, some (.other ("hash password: " ++ text)))
    | .ok hash =>
      if s.claimedByOther username accountID then (s, some .accountClaimed)
      else
        ({ s with users := s.users.insert username ⟨username, hash, accountID, bank⟩ },
          saveErr.map .other)

/-- `authenticate` at the time `now`, with what `newToken` draws. -/
def authenticate (drawn : Except String String) (now : ℕ) (username password : String) :
    AuthStore × Except AuthError String :=
  let user := s.users.lookup username
  -- the comparison is made for an unknown user too, to take as long
  let hash := user.elim b.dummyHash Identity.passwordHash
  if !b.compareHashAndPassword hash password || user.isNone then (s, .error .badCredentials)
  else
    match drawn with
    | .error text => (s, .error (.other ("generate token: " ++ text)))
    | .ok token =>
      ({ s with
          sessions := Function.update s.sessions token
            (some ⟨username, now + tokenTTL, password⟩) }, .ok token)

/-- `lookupSession` at the time `now`. -/
def lookupSession (now : ℕ) (token : String) : Option Identity :=
  match s.sessions token with
  | none => none
  | some sess => if sess.expiresAt < now then none else s.users.lookup sess.username

/-- One round of `expireSessions`. -/
def expireSessions (now : ℕ) : AuthStore :=
  { s with sessions := fun token => (s.sessions token).filter fun sess => !(sess.expiresAt < now) }

end AuthStore

structure RegisterRequest where
  username : String
  password : String
  accountID : String
  bankName : String
  deriving DecidableEq

structure AuthRequest where
  username : String
  password : String
  accountID : String
  deriving DecidableEq

structure BalanceRequest where
  accountID : String
  bankName : String
  deriving DecidableEq

/-- The methods of the gateway. -/
inductive Method
  | register
  | authenticate
  | bankRegister
  | transferMoney
  | checkBalance
  deriving DecidableEq

def publicMethods : Method → Bool
  | .register | .authenticate | .bankRegister => true
  | .transferMoney | .checkBalance => false

/-- The values of the key `authorization` in the metadata of a call, if it carries metadata. -/
abbrev Metadata := Option (List String)

structure Service where
  auth : AuthStore
  /-- The switch of `gatewayHealth`. -/
  active : Bool
  now : ℕ
  banks : Banks
  registrations : List RegisterRequest

/-- `requireOwnership` for the caller that the interceptor has put into the context. -/
def requireOwnership (caller : Option Identity) (accountID : String) : Except Status Identity :=
  match caller with
  | none => .error ⟨.unauthenticated, "no authenticated caller"⟩
  | some caller =>
    if caller.accountID = "" then
      .error ⟨.failedPrecondition,
        "this account was registered by an older client; register again to link an account id"⟩
    else if caller.accountID ≠ accountID then
      .error ⟨.permissionDenied,
        "user " ++ caller.username ++ " is not the owner of account " ++ accountID⟩
    else .ok caller

namespace Service

variable (b : Bcrypt) (s : Service)

/-- The gateway with an empty users file and these banks. -/
def init (banks : Banks) : Service := ⟨⟨∅, fun _ => none⟩, true, 0, banks, []⟩

def check : Option Status :=
  if s.active then none else some ⟨.unavailable, "gateway is offline"⟩

/-- `authUnaryInterceptor`: the caller that goes into the context of the handler, if any. -/
def authUnaryInterceptor (m : Method) (md : Metadata) : Except Status (Option Identity) :=
  match s.check with
  | some err => .error err
  | none =>
    if publicMethods m then .ok none
    else
      match md with
      | none => .error ⟨.unauthenticated, "request carries no metadata"⟩
      | some [] => .error ⟨.unauthenticated, "missing authorization token"⟩
      | some (token :: _) =>
        match s.auth.lookupSession s.now token with
        | none => .error ⟨.unauthenticated, "token is invalid or has expired"⟩
        | some caller => .ok (some caller)

/-- The interceptor and the ownership check of a call. -/
def authorize (m : Method) (md : Metadata) (accountID : String) : Except Status Identity :=
  (s.authUnaryInterceptor m md).bind fun caller => requireOwnership caller accountID

/-- `Register`. -/
def register (salt : ℕ) (saveErr : Option String) (req : RegisterRequest) :
    Service × Option Status :=
  match s.authUnaryInterceptor .register none with
  | .error err => (s, some err)
  | .ok _ =>
    if req.username = "" ∨ req.password = "" ∨ req.accountID = "" then
      (s, some ⟨.invalidArgument, "username, password and account id are all required"⟩)
    else
      match s.auth.register b salt saveErr req.username req.password req.accountID req.bankName with
      | (auth, some .accountClaimed) =>
        ({ s with auth := auth }, some ⟨.permissionDenied,
          "account " ++ req.accountID ++ " is already registered to another user"⟩)
      | (auth, some (.other text)) =>
        ({ s with auth := auth }, some ⟨.internal, "register " ++ req.username ++ ": " ++ text⟩)
      | (auth, none) =>
        ({ s with auth := auth, registrations := s.registrations ++ [req] }, none)

/-- `Authenticate`. -/
def authenticate (drawn : Except String String) (req : AuthRequest) :
    Service × Except Status String :=
  match s.authUnaryInterceptor .authenticate none with
  | .error err => (s, .error err)
  | .ok _ =>
    match s.auth.authenticate b drawn s.now req.username req.password with
    | (auth, .error .badCredentials) =>
      ({ s with auth := auth }, .error ⟨.unauthenticated, "invalid username or password"⟩)
    | (auth, .error (.other text)) =>
      ({ s with auth := auth },
        .error ⟨.internal, "authenticate " ++ req.username ++ ": " ++ text⟩)
    | (auth, .ok token) => ({ s with auth := auth }, .ok token)

/-- `TransferMoney`; `Gateway.transferMoney` is what it does for the owner of the account. -/
def transferMoney (md : Metadata) (req : TransferRequest) : Service × Option Status :=
  match s.authorize .transferMoney md req.fromAccount with
  | .error err => (s, some err)
  | .ok _ =>
    let (banks, err) := Gateway.transferMoney s.banks req
    ({ s with banks := banks }, err)

/-- `CheckBalance` at a bank that is up. -/
def checkBalance (md : Metadata) (req : BalanceRequest) : Except Status ℚ :=
  match s.authorize .checkBalance md req.accountID with
  | .error err => .error err
  | .ok _ =>
    match s.banks.lookup req.bankName with
    | none =>
      .error ⟨.notFound,
        "bank " ++ Quoted.quote req.bankName ++ " is not registered with this gateway"⟩
    | some p =>
      match p.store.balance req.accountID with
      | none =>
        .error ⟨.notFound, "account " ++ req.accountID ++ " does not exist at " ++ req.bankName⟩
      | some balance => .ok balance

inductive Action
  | register (salt : ℕ) (saveErr : Option String) (req : RegisterRequest)
  | authenticate (drawn : Except String String) (req : AuthRequest)
  | transferMoney (md : Metadata) (req : TransferRequest)
  | checkBalance (md : Metadata) (req : BalanceRequest)
  /-- The operator switches the gateway on or off. -/
  | set (active : Bool)
  /-- Time passes. -/
  | wait (d : ℕ)
  | expireSessions

def step : Action → Option Service
  | .register salt saveErr req => some (s.register b salt saveErr req).1
  | .authenticate drawn req => some (s.authenticate b drawn req).1
  | .transferMoney md req => some (s.transferMoney md req).1
  | .checkBalance _ _ => some s
  | .set active => some { s with active := active }
  | .wait d => some { s with now := s.now + d }
  | .expireSessions => some { s with auth := s.auth.expireSessions s.now }

/-- The user whose session the first token of a call belongs to. -/
def caller : Metadata → Option Identity
  | some (token :: _) => s.auth.lookupSession s.now token
  | _ => none

end Service

/-! ## What the calls do -/

namespace AuthStore

variable {s : AuthStore} {username accountID token : String} {now : ℕ} {u : Identity}

theorem linked_iff :
    s.linked accountID = true ↔
      ∃ name u, s.users.lookup name = some u ∧ u.accountID = accountID := by
  simp only [linked, decide_eq_true_eq, Finmap.mem_keys, Option.any_eq_true]
  constructor
  · rintro ⟨name, -, u, hu, ha⟩
    exact ⟨name, u, hu, ha⟩
  · rintro ⟨name, u, hu, ha⟩
    exact ⟨name, Finmap.mem_of_lookup_eq_some hu, u, hu, ha⟩

theorem username_of_not_claimedByOther (h : s.claimedByOther username accountID = false)
    {name : String} (hu : s.users.lookup name = some u) (ha : u.accountID = accountID) :
    u.username = username := by
  simp only [claimedByOther, decide_eq_false_iff_not, Finmap.mem_keys, Option.any_eq_true] at h
  by_contra hne
  exact h ⟨name, Finmap.mem_of_lookup_eq_some hu, u, hu, by simp [ha, hne]⟩

/-- `register` with a `save` that succeeds. -/
theorem register_cases (b : Bcrypt) (s : AuthStore) (salt : ℕ)
    (username password accountID bank : String) :
    (∃ err, s.register b salt none username password accountID bank = (s, some err)) ∨
      ∃ hash, b.generateFromPassword salt password = .ok hash ∧
        s.claimedByOther username accountID = false ∧
        s.register b salt none username password accountID bank =
          ({ s with users := s.users.insert username ⟨username, hash, accountID, bank⟩ },
            none) := by
  unfold register
  by_cases hempty : username = "" ∨ password = ""
  · exact .inl ⟨_, if_pos hempty⟩
  · rw [if_neg hempty]
    cases hhash : b.generateFromPassword salt password with
    | error text => exact .inl ⟨_, rfl⟩
    | ok hash =>
      cases hclaimed : s.claimedByOther username accountID with
      | true => exact .inl ⟨_, rfl⟩
      | false => exact .inr ⟨hash, rfl, rfl, rfl⟩

theorem authenticate_cases (b : Bcrypt) (s : AuthStore) (drawn : Except String String) (now : ℕ)
    (username password : String) :
    (∃ err, s.authenticate b drawn now username password = (s, .error err)) ∨
      ∃ u token, s.users.lookup username = some u ∧
        b.compareHashAndPassword u.passwordHash password = true ∧
        s.authenticate b drawn now username password =
          ({ s with
              sessions := Function.update s.sessions token
                (some ⟨username, now + tokenTTL, password⟩) }, .ok token) := by
  unfold authenticate
  cases hu : s.users.lookup username with
  | none => exact .inl ⟨.badCredentials, by simp⟩
  | some u =>
    cases hpass : b.compareHashAndPassword u.passwordHash password with
    | false => exact .inl ⟨.badCredentials, by simp [hpass]⟩
    | true =>
      cases drawn with
      | error text => exact .inl ⟨_, by simp [hpass]; rfl⟩
      | ok token => exact .inr ⟨u, token, rfl, hpass, by simp [hpass]⟩

theorem lookupSession_eq_some (h : s.lookupSession now token = some u) :
    ∃ sess, s.sessions token = some sess ∧ s.users.lookup sess.username = some u := by
  unfold lookupSession at h
  split at h
  · cases h
  · rename_i sess hsess
    split_ifs at h
    exact ⟨sess, hsess, h⟩

end AuthStore

namespace Service

variable {b : Bcrypt} {s : Service} {md : Metadata} {accountID : String} {u : Identity}

/-- A call of `Register` whose `save` succeeds is refused, or it puts the user into the map. -/
theorem register_cases (b : Bcrypt) (s : Service) (salt : ℕ) (req : RegisterRequest) :
    (s.register b salt none req).1 = s ∨
      ∃ hash, b.generateFromPassword salt req.password = .ok hash ∧
        s.auth.claimedByOther req.username req.accountID = false ∧
        (s.register b salt none req).1 =
          { s with
            auth := { s.auth with
              users := s.auth.users.insert req.username
                ⟨req.username, hash, req.accountID, req.bankName⟩ }
            registrations := s.registrations ++ [req] } := by
  unfold register
  split
  · exact .inl rfl
  · split_ifs
    · exact .inl rfl
    · rcases AuthStore.register_cases b s.auth salt req.username req.password req.accountID
        req.bankName with ⟨err, h⟩ | ⟨hash, hhash, hclaimed, h⟩
      · left
        cases err <;> simp [h]
      · exact .inr ⟨hash, hhash, hclaimed, by simp [h]⟩

/-- A call of `Authenticate` is refused, or it issues a token to a caller with the password. -/
theorem authenticate_cases (b : Bcrypt) (s : Service) (drawn : Except String String)
    (req : AuthRequest) :
    (s.authenticate b drawn req).1 = s ∨
      ∃ u token, s.auth.users.lookup req.username = some u ∧
        b.compareHashAndPassword u.passwordHash req.password = true ∧
        (s.authenticate b drawn req).1 =
          { s with
            auth := { s.auth with
              sessions := Function.update s.auth.sessions token
                (some ⟨req.username, s.now + tokenTTL, req.password⟩) } } := by
  unfold authenticate
  split
  · exact .inl rfl
  · rcases AuthStore.authenticate_cases b s.auth drawn s.now req.username req.password with
      ⟨err, h⟩ | ⟨u, token, hu, hpass, h⟩
    · left
      cases err <;> simp [h]
    · exact .inr ⟨u, token, hu, hpass, by simp [h]⟩

/-- `TransferMoney` leaves users and sessions as they are. -/
theorem transferMoney_cases (s : Service) (md : Metadata) (req : TransferRequest) :
    ∃ banks, (s.transferMoney md req).1 = { s with banks := banks } := by
  unfold transferMoney
  split
  · exact ⟨s.banks, rfl⟩
  · exact ⟨_, rfl⟩

theorem caller_eq_some (h : s.caller md = some u) :
    ∃ token rest sess, md = some (token :: rest) ∧ s.auth.sessions token = some sess ∧
      s.auth.users.lookup sess.username = some u := by
  unfold caller at h
  split at h
  · rename_i token rest
    obtain ⟨sess, hsess, hu⟩ := AuthStore.lookupSession_eq_some h
    exact ⟨token, rest, sess, rfl, hsess, hu⟩
  · cases h

/-- A call that passes both checks was made by the user of its token, who has the account. -/
theorem authorize_eq_ok {m : Method} (hm : publicMethods m = false)
    (h : s.authorize m md accountID = .ok u) : s.caller md = some u ∧ u.accountID = accountID := by
  unfold authorize at h
  cases hauth : s.authUnaryInterceptor m md with
  | error err => simp [hauth, Except.bind] at h
  | ok caller =>
    have hcaller : caller = s.caller md := by
      unfold authUnaryInterceptor at hauth
      split at hauth
      · cases hauth
      · rw [if_neg (by simp [hm])] at hauth
        split at hauth
        · cases hauth
        · cases hauth
        · rename_i token rest
          split at hauth
          · cases hauth
          · rename_i found hfound
            rw [← Except.ok.inj hauth, Service.caller, hfound]
    simp only [hauth, Except.bind] at h
    unfold requireOwnership at h
    split at h
    · cases h
    · split_ifs at h with hempty haccount
      obtain rfl := Except.ok.inj h
      exact ⟨hcaller.symm, not_not.mp haccount⟩

end Service

end PaxosPayments.Gateway
