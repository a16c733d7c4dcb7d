import PaxosPayments.Foundations.Csv
import PaxosPayments.Foundations.Tables
import PaxosPayments.Gateway.Auth

/-!
# The users file of the gateway

`register` updates the map of users under the write lock; `save` then takes the rows of all users
under the read lock and renames a file with these rows over the users file outside any lock. Any
number of calls may be under way, each at any of these points. `Registrations` is the map and the
file with the calls; `version` counts the updates of the map, and `fileVersion` is the version that
the rows of the file were taken at. Nothing that the gateway does depends on either.

`load` reads the file back. Once every call that was started has returned `nil`, it finds exactly
the users in the map (`registered_durable`), in the runs in which no rename puts an older version in
the place of a newer one and no text has a carriage return before a newline. A rename that comes
late takes back a user whose registration has returned `nil` (`registration_lost`).
-/

namespace PaxosPayments.Gateway

open Bank (isSpace)

abbrev Users := Finmap fun _ : String => Identity

/-! ## Saving and loading -/

/-- The first row of the users file. -/
def gatewayUsersHeader : Csv.Row :=
  ["username", "password_hash", "account_id", "bank_name"].map String.toList

def Identity.row (u : Identity) : Csv.Row :=
  [u.username.toList, u.passwordHash.toList, u.accountID.toList, u.bank.toList]

/-- The file that `save` writes when the map hands out the users in this order. -/
def writeUsers (order : List Identity) : List Char :=
  Csv.write isSpace (gatewayUsersHeader :: order.map Identity.row)

/-- The users in some order in which the map may hand them out. -/
def lists (users : Users) (order : List Identity) : Bool :=
  ((order.map fun u => (⟨u.username, u⟩ : Σ _ : String, Identity)) : Multiset _) = users.entries

/-- The text has no carriage return before a newline. -/
def cleanText (text : String) : Bool := Csv.joinEnds text.toList = text.toList

/-- A password hash in the modular format of `bcrypt`. -/
def modularHash (hash : String) : Bool := hash.toList.take 2 = ['$', '2'] && cleanText hash

/-- `bcrypt` with the format of its hashes. -/
structure ModularBcrypt extends Bcrypt where
  modular : ∀ {salt password hash}, generateFromPassword salt password = .ok hash →
    modularHash hash = true

/-- Why `load` fails. -/
inductive LoadError
  /-- The file is not in the format of the package `csv`. -/
  | read
  | other (text : String)
  deriving DecidableEq

section load

variable (b : Bcrypt)

/-- One row of `load`: the users, and whether a password was hashed that an older build has left in
the clear. -/
def loadRow (salt : ℕ) (first : Bool) (loaded : Users × Bool) (row : Csv.Row) :
    Except LoadError (Users × Bool) :=
  if first ∧ row.head? = some "username".toList then .ok loaded
  else
    match row with
    | name :: hash :: rest =>
      if name = [] then .ok loaded
      else
        let user : Identity := ⟨String.ofList name, String.ofList hash,
          String.ofList (rest.getD 0 []), String.ofList (rest.getD 1 [])⟩
        if hash.take 2 = ['$', '2'] then .ok (loaded.1.insert user.username user, loaded.2)
        else
          match b.generateFromPassword salt user.passwordHash with
          | .error text =>
            .error (.other ("upgrade password for " ++ user.username ++ ": " ++ text))
          | .ok hash =>
            .ok (loaded.1.insert user.username { user with passwordHash := hash }, true)
    | _ => .ok loaded

/-- The rows from number `i` on, with the salts that would be drawn. -/
def loadRows (salts : ℕ → ℕ) : ℕ → List Csv.Row → Users × Bool → Except LoadError (Users × Bool)
  | _, [], loaded => .ok loaded
  | i, row :: rows, loaded =>
    (loadRow b (salts i) (i = 0) loaded row).bind (loadRows salts (i + 1) rows)

/-- `load`: the users, and whether the file is saved again. A missing file is created. -/
def load (salts : ℕ → ℕ) : Option (List Char) → Except LoadError (Users × Bool)
  | none => .ok (∅, true)
  | some file =>
    match Csv.parse file with
    | none => .error .read
    | some rows => loadRows b salts 0 rows (∅, false)

end load

/-! ## Calls of `register` -/

/-- Where a call is. -/
inductive RegisterStage
  /-- It has hashed the password and takes the write lock next. -/
  | hashed (user : Identity)
  /-- The user is in the map, and `save` takes the read lock next. -/
  | updated
  /-- It has the rows of this version and renames a file with them next. -/
  | snapshot (file : List Char) (version : ℕ)
  | returned (err : Option RegisterError)
  deriving DecidableEq

structure Registrations where
  auth : AuthStore
  file : List Char
  /-- The calls in the order in which they were started. -/
  calls : List RegisterStage
  version : ℕ
  fileVersion : ℕ

namespace Registrations

inductive Action
  /-- A call begins; its checks and the hash come before the lock. -/
  | start (salt : ℕ) (req : RegisterRequest)
  | update (p : ℕ)
  /-- The snapshot of `save`, with the users in the order of the map. -/
  | snapshot (p : ℕ) (order : List Identity)
  | rename (p : ℕ)
  /-- `save` fails after its snapshot. -/
  | fail (p : ℕ) (text : String)

/-- The gateway with these users and this file, before any call. -/
def init (auth : AuthStore) (file : List Char) : Registrations := ⟨auth, file, [], 0, 0⟩

def setCall (st : Registrations) (p : ℕ) (stage : RegisterStage) : Registrations :=
  { st with calls := st.calls.set p stage }

/-- What a call does before it takes the lock. -/
def begun (b : Bcrypt) (salt : ℕ) (req : RegisterRequest) : RegisterStage :=
  if req.username = "" ∨ req.password = "" then
    .returned (some (.other "username and password are required"))
  else
    match b.generateFromPassword salt req.password with
    | .error text => .returned (some (.other ("hash password: " ++ text)))
    | .ok hash => .hashed ⟨req.username, hash, req.accountID, req.bankName⟩

def step (b : Bcrypt) (st : Registrations) : Action → Option Registrations
  | .start salt req => some { st with calls := st.calls ++ [begun b salt req] }
  | .update p =>
    match st.calls[p]? with
    | some (.hashed u) =>
      if st.auth.claimedByOther u.username u.accountID then
        some (st.setCall p (.returned (some .accountClaimed)))
      else
        some { st.setCall p .updated with
          auth := { st.auth with users := st.auth.users.insert u.username u }
          version := st.version + 1 }
    | _ => none
  | .snapshot p order =>
    match st.calls[p]? with
    | some .updated =>
      if lists st.auth.users order then
        some (st.setCall p (.snapshot (writeUsers order) st.version))
      else none
    | _ => none
  | .rename p =>
    match st.calls[p]? with
    | some (.snapshot file version) =>
      some { st.setCall p (.returned none) with file := file, fileVersion := version }
    | _ => none
  | .fail p text =>
    match st.calls[p]? with
    | some (.snapshot _ _) => some (st.setCall p (.returned (some (.other text))))
    | _ => none

/-- Texts are clean, and no rename puts an older version in the place of a newer one. -/
def ordered (st : Registrations) : Action → Bool
  | .start _ req => cleanText req.username && cleanText req.accountID && cleanText req.bankName
  | .rename p =>
    match st.calls[p]? with
    | some (.snapshot _ version) => st.fileVersion ≤ version
    | _ => true
  | .update _ | .snapshot _ _ | .fail _ _ => true

/-- Every call that was started has returned `nil`. -/
def settled (st : Registrations) : Bool := st.calls.all (· = .returned none)

end Registrations

/-! ## What is saved is loaded -/

/-- A user that can be saved: a name, a hash of `bcrypt`, and texts that the file keeps. -/
structure Identity.Proper (u : Identity) : Prop where
  username : u.username ≠ ""
  passwordHash : modularHash u.passwordHash = true
  clean : cleanText u.username = true ∧ cleanText u.accountID = true ∧ cleanText u.bank = true

theorem joinEnds_of_cleanText {text : String} (h : cleanText text = true) :
    Csv.joinEnds text.toList = text.toList := of_decide_eq_true h

variable {b : Bcrypt} {users : Users} {order : List Identity} {u : Identity}

theorem Identity.Proper.joinEnds_row (h : u.Proper) : u.row.map Csv.joinEnds = u.row := by
  have hhash : cleanText u.passwordHash = true := (Bool.and_eq_true_iff.mp h.passwordHash).2
  simp only [Identity.row, List.map_cons, List.map_nil, joinEnds_of_cleanText hhash,
    joinEnds_of_cleanText h.clean.1, joinEnds_of_cleanText h.clean.2.1,
    joinEnds_of_cleanText h.clean.2.2]

theorem loadRow_row (h : u.Proper) (salt : ℕ) (loaded : Users × Bool) :
    loadRow b salt false loaded u.row = .ok (loaded.1.insert u.username u, loaded.2) := by
  have hname : u.username.toList ≠ [] := by
    intro hnil
    exact h.username (String.toList_inj.mp hnil)
  have hhash : u.passwordHash.toList.take 2 = ['$', '2'] :=
    of_decide_eq_true (Bool.and_eq_true_iff.mp h.passwordHash).1
  simp [loadRow, Identity.row, hname, hhash]

theorem loadRows_map_row (hproper : ∀ u ∈ order, u.Proper) (salts : ℕ → ℕ) {i : ℕ} (hi : i ≠ 0)
    (loaded : Users × Bool) : loadRows b salts i (order.map Identity.row) loaded =
      .ok (order.foldl (fun users u => users.insert u.username u) loaded.1, loaded.2) := by
  induction order generalizing i loaded with
  | nil => rfl
  | cons u order ih =>
    rw [List.map_cons, loadRows, decide_eq_false hi, loadRow_row (hproper u List.mem_cons_self)]
    exact ih (fun w hw => hproper w (List.mem_cons_of_mem u hw)) (Nat.succ_ne_zero i) _

theorem mem_iff_of_lists (h : lists users order = true) {name : String} :
    users.lookup name = some u ↔ u ∈ order ∧ u.username = name := by
  have hentries := of_decide_eq_true h
  rw [← Option.mem_def, Finmap.mem_lookup_iff, ← hentries, Multiset.mem_coe, List.mem_map]
  constructor
  · rintro ⟨w, hw, heq⟩
    cases heq
    exact ⟨hw, rfl⟩
  · rintro ⟨hu, rfl⟩
    exact ⟨u, hu, rfl⟩

theorem nodup_of_lists (h : lists users order = true) : (order.map Identity.username).Nodup := by
  have hnodup := users.nodupKeys
  rw [← of_decide_eq_true h, Multiset.coe_nodupKeys] at hnodup
  simpa [List.NodupKeys, List.keys, Function.comp_def] using hnodup

theorem lookup_foldl_insert (hnodup : (order.map Identity.username).Nodup) (loaded : Users)
    {name : String} :
    (order.foldl (fun users u => users.insert u.username u) loaded).lookup name = some u ↔
      (u ∈ order ∧ u.username = name) ∨
        (name ∉ order.map Identity.username ∧ loaded.lookup name = some u) := by
  induction order generalizing loaded with
  | nil => simp
  | cons w order ih =>
    obtain ⟨hw, hnodup⟩ := List.nodup_cons.mp hnodup
    rw [List.foldl_cons, ih hnodup]
    by_cases hname : name = w.username
    · -- the later rows have other names, so the row of `w` is the one that counts
      subst hname
      have hrest : ∀ v ∈ order, v.username ≠ w.username :=
        fun v hv heq => hw (heq ▸ List.mem_map_of_mem hv)
      rw [Finmap.lookup_insert]
      grind
    · rw [Finmap.lookup_insert_of_ne _ hname]
      grind

theorem foldl_insert_of_lists (h : lists users order = true) :
    order.foldl (fun users u => users.insert u.username u) ∅ = users := by
  refine Finmap.ext_lookup fun name => Option.ext fun u => ?_
  rw [lookup_foldl_insert (nodup_of_lists h), mem_iff_of_lists h]
  simp

/-- Every user is under its name and can be saved. -/
def ProperUsers (users : Users) : Prop :=
  ∀ name u, users.lookup name = some u → u.username = name ∧ u.Proper

theorem properUsers_empty : ProperUsers ∅ := by
  intro name u hu
  simp at hu

theorem lookup_insert_cases {name : String} {w : Identity}
    (h : (users.insert u.username u).lookup name = some w) :
    (u.username = name ∧ w = u) ∨ users.lookup name = some w := by
  by_cases hname : name = u.username
  · subst hname
    rw [Finmap.lookup_insert] at h
    exact Or.inl ⟨rfl, (Option.some.inj h).symm⟩
  · rw [Finmap.lookup_insert_of_ne _ hname] at h
    exact Or.inr h

theorem ProperUsers.insert (h : ProperUsers users) (hu : u.Proper) :
    ProperUsers (users.insert u.username u) := by
  intro name w hw
  rcases lookup_insert_cases hw with ⟨hname, rfl⟩ | hw
  · exact ⟨hname, hu⟩
  · exact h name w hw

/-- The gateway that loads the file has these users, and leaves the file as it is. -/
def Holds (b : Bcrypt) (file : List Char) (users : Users) : Prop :=
  ∀ salts, load b salts (some file) = .ok (users, false)

/-- **What is saved is loaded**, whatever the order of the rows. -/
theorem holds_writeUsers (b : Bcrypt) (hproper : ProperUsers users)
    (h : lists users order = true) : Holds b (writeUsers order) users := by
  intro salts
  have horder : ∀ u ∈ order, u.Proper := fun u hu =>
    (hproper u.username u ((mem_iff_of_lists h).mpr ⟨hu, rfl⟩)).2
  have hrows : ∀ row ∈ gatewayUsersHeader :: order.map Identity.row, row ≠ [] ∧ row ≠ [[]] := by
    intro row hrow
    rcases List.mem_cons.mp hrow with rfl | hrow
    · decide
    · obtain ⟨u, -, rfl⟩ := List.mem_map.mp hrow
      simp [Identity.row]
  have hheader : gatewayUsersHeader.map Csv.joinEnds = gatewayUsersHeader := by decide
  have hclean : (order.map Identity.row).map (·.map Csv.joinEnds) = order.map Identity.row := by
    rw [List.map_map]
    exact List.map_congr_left fun u hu => (horder u hu).joinEnds_row
  rw [load, writeUsers, Csv.parse_write isSpace hrows, List.map_cons, hheader, hclean]
  change loadRows b salts 1 (order.map Identity.row) (∅, false) = _
  rw [loadRows_map_row horder salts one_ne_zero, foldl_insert_of_lists h]

theorem exists_lists (hnames : ∀ name u, users.lookup name = some u → u.username = name) :
    ∃ order, lists users order = true := by
  refine ⟨users.entries.toList.map Sigma.snd, decide_eq_true ?_⟩
  rw [List.map_map, List.map_congr_left (g := id), List.map_id, Multiset.coe_toList]
  rintro ⟨name, u⟩ hu
  obtain rfl : u.username = name :=
    hnames name u (Finmap.mem_lookup_iff.mpr (Multiset.mem_toList.mp hu))
  rfl

/-! ## Every registration is saved -/

/-- The call will save this version of the map, or has failed. -/
def RegisterStage.covers (version : ℕ) : RegisterStage → Prop
  | .updated | .returned (some _) => True
  | .snapshot _ taken => taken = version
  | .hashed _ | .returned none => False

namespace Registrations

variable {st st' : Registrations} {a : Action} {p : ℕ} {stage stage' : RegisterStage}
  {file : List Char}

/-- Rows taken at a version: those of the map, if it has not been updated since. -/
def Current (b : Bcrypt) (st : Registrations) (file : List Char) (version : ℕ) : Prop :=
  version ≤ st.version ∧ (version = st.version → Holds b file st.auth.users)

/-- What a call has in hand. -/
def Keeps (b : Bcrypt) (st : Registrations) : RegisterStage → Prop
  | .hashed u => u.Proper
  | .snapshot file version => Current b st file version
  | .updated | .returned _ => True

/-- The invariant: as long as the file is not that of the map, some call will save the map or has
failed. -/
structure Sound (b : Bcrypt) (st : Registrations) : Prop where
  users : ProperUsers st.auth.users
  file : Current b st st.file st.fileVersion
  calls : ∀ (p : ℕ) stage, st.calls[p]? = some stage → Keeps b st stage
  covered : st.fileVersion = st.version ∨ ∃ (p : ℕ) (stage : RegisterStage),
    st.calls[p]? = some stage ∧ stage.covers st.version

theorem sound_init {auth : AuthStore} (hproper : ProperUsers auth.users)
    (hfile : Holds b file auth.users) : Sound b (init auth file) where
  users := hproper
  file := ⟨le_rfl, fun _ => hfile⟩
  calls _ _ h := by simp [init] at h
  covered := Or.inl rfl

theorem getElem?_setCall (h : st.calls[p]? = some stage) (stage' : RegisterStage) (q : ℕ) :
    (st.setCall p stage').calls[q]? = if q = p then some stage' else st.calls[q]? := by
  obtain ⟨hp, -⟩ := List.getElem?_eq_some_iff.mp h
  simp only [setCall, List.getElem?_set]
  grind

theorem keeps_begun {b : ModularBcrypt} {salt : ℕ} {req : RegisterRequest}
    (hclean : cleanText req.username = true ∧ cleanText req.accountID = true ∧
      cleanText req.bankName = true) (st : Registrations) :
    Keeps b.toBcrypt st (begun b.toBcrypt salt req) := by
  unfold begun
  split_ifs with hempty
  · trivial
  · split
    · trivial
    · rename_i hash hhash
      exact ⟨fun h => hempty (Or.inl h), b.modular hhash, hclean⟩

theorem Sound.start (h : Sound b st) (hstage : Keeps b st stage) :
    Sound b { st with calls := st.calls ++ [stage] } where
  users := h.users
  file := h.file
  calls q old hq := by
    rcases Table.getElem?_concat_eq_some.mp hq with hq | ⟨-, rfl⟩
    · exact h.calls q old hq
    · exact hstage
  covered := by
    rcases h.covered with heq | ⟨q, old, hq, hcovers⟩
    · exact Or.inl heq
    · exact Or.inr ⟨q, old, Table.getElem?_concat hq stage, hcovers⟩

/-- A call goes on and neither the map nor the file changes. -/
theorem Sound.setCall (h : Sound b st) (hp : st.calls[p]? = some stage)
    (hstage : Keeps b st stage')
    (hcovers : stage.covers st.version → stage'.covers st.version) :
    Sound b (st.setCall p stage') where
  users := h.users
  file := h.file
  calls q old hq := by
    rw [getElem?_setCall hp] at hq
    split_ifs at hq with hqp
    · obtain rfl := Option.some.inj hq
      exact hstage
    · exact h.calls q old hq
  covered := by
    rcases h.covered with heq | ⟨q, old, hq, hold⟩
    · exact Or.inl heq
    · refine Or.inr ?_
      by_cases hqp : q = p
      · subst hqp
        obtain rfl := Option.some.inj (hp.symm.trans hq)
        exact ⟨q, stage', by rw [getElem?_setCall hp, if_pos rfl], hcovers hold⟩
      · exact ⟨q, old, by rw [getElem?_setCall hp, if_neg hqp, hq], hold⟩

/-- The map is updated: no rows are those of the map any more, and this call will save it. -/
theorem Sound.update (h : Sound b st) {u : Identity} (hp : st.calls[p]? = some (.hashed u)) :
    Sound b { st.setCall p .updated with
      auth := { st.auth with users := st.auth.users.insert u.username u }
      version := st.version + 1 } := by
  have hold : ∀ {file version}, Current b st file version → Current b { st.setCall p .updated with
      auth := { st.auth with users := st.auth.users.insert u.username u }
      version := st.version + 1 } file version := by
    rintro file version ⟨hle, -⟩
    exact ⟨Nat.le_succ_of_le hle, fun heq => absurd (heq ▸ hle) (Nat.not_succ_le_self _)⟩
  have hkeeps : ∀ (q : ℕ) stage, (st.setCall p .updated).calls[q]? = some stage →
      stage = .updated ∨ Keeps b st stage := by
    intro q stage hq
    rw [getElem?_setCall hp] at hq
    split_ifs at hq with hqp
    · exact Or.inl (Option.some.inj hq).symm
    · exact Or.inr (h.calls q stage hq)
  refine ⟨h.users.insert (h.calls p _ hp), hold h.file, ?_, Or.inr ?_⟩
  · intro q stage hq
    rcases hkeeps q stage hq with rfl | hstage
    · trivial
    · cases stage with
      | hashed w => exact hstage
      | snapshot file version => exact hold hstage
      | updated => trivial
      | returned err => trivial
  · exact ⟨p, .updated, by rw [getElem?_setCall hp, if_pos rfl], trivial⟩

/-- A file is replaced by one of no older version. -/
theorem Sound.rename (h : Sound b st) {version : ℕ}
    (hp : st.calls[p]? = some (.snapshot file version)) (hle : st.fileVersion ≤ version) :
    Sound b { st.setCall p (.returned none) with file := file, fileVersion := version } := by
  have hcurrent : Current b st file version := h.calls p _ hp
  refine ⟨h.users, hcurrent, ?_, ?_⟩
  · intro q stage hq
    change (st.setCall p (.returned none)).calls[q]? = some stage at hq
    rw [getElem?_setCall hp] at hq
    split_ifs at hq with hqp
    · obtain rfl := Option.some.inj hq
      trivial
    · exact h.calls q stage hq
  · by_cases hversion : version = st.version
    · exact Or.inl hversion
    · -- the map has been updated since these rows were taken, so the file was not that of the map
      have hne : st.fileVersion ≠ st.version := by
        have := hcurrent.1
        omega
      obtain ⟨q, stage, hq, hcovers⟩ := h.covered.resolve_left hne
      have hqp : q ≠ p := by
        rintro rfl
        obtain rfl := Option.some.inj (hp.symm.trans hq)
        exact hversion hcovers
      have hkept : (st.setCall p (.returned none)).calls[q]? = some stage := by
        rw [getElem?_setCall hp, if_neg hqp, hq]
      exact Or.inr ⟨q, stage, hkept, hcovers⟩

theorem Sound.step {b : ModularBcrypt} (h : Sound b.toBcrypt st) (hok : ordered st a = true)
    (hs : st.step b.toBcrypt a = some st') : Sound b.toBcrypt st' := by
  cases a with
  | start salt req =>
    simp only [Registrations.step, Option.some.injEq] at hs
    subst hs
    simp only [ordered, Bool.and_eq_true] at hok
    exact h.start (keeps_begun ⟨hok.1.1, hok.1.2, hok.2⟩ st)
  | update p =>
    simp only [Registrations.step] at hs
    split at hs
    · rename_i u hp
      split_ifs at hs
      · obtain rfl := Option.some.inj hs
        exact h.setCall hp trivial fun _ => trivial
      · obtain rfl := Option.some.inj hs
        exact h.update hp
    · cases hs
  | snapshot p order =>
    simp only [Registrations.step] at hs
    split at hs
    · rename_i hp
      split_ifs at hs with hlists
      obtain rfl := Option.some.inj hs
      exact h.setCall hp ⟨le_rfl, fun _ => holds_writeUsers _ h.users hlists⟩ fun _ => rfl
    · cases hs
  | rename p =>
    simp only [Registrations.step] at hs
    split at hs
    · rename_i file version hp
      obtain rfl := Option.some.inj hs
      simp only [ordered, hp, decide_eq_true_eq] at hok
      exact h.rename hp hok
    · cases hs
  | fail p text =>
    simp only [Registrations.step] at hs
    split at hs
    · rename_i hp
      obtain rfl := Option.some.inj hs
      exact h.setCall hp trivial fun _ => trivial
    · cases hs

theorem Sound.holds_of_settled (h : Sound b st) (hsettled : st.settled = true) :
    Holds b st.file st.auth.users := by
  refine h.file.2 (h.covered.resolve_right ?_)
  rintro ⟨p, stage, hp, hcovers⟩
  obtain rfl : stage = .returned none :=
    of_decide_eq_true (List.all_eq_true.mp hsettled stage (List.mem_of_getElem? hp))
  exact hcovers

/-! ## One call at a time -/

theorem save_alone (b : Bcrypt)
    (hnames : ∀ name u, st.auth.users.lookup name = some u → u.username = name)
    (hp : st.calls[p]? = some .updated) (saveErr : Option String) :
    ∃ as st', Run (step b) always st as st' ∧ st'.auth = st.auth ∧
      st'.calls[p]? = some (.returned (saveErr.map .other)) := by
  obtain ⟨order, horder⟩ := exists_lists hnames
  let rows : RegisterStage := .snapshot (writeUsers order) st.version
  have hsnapshot : st.step b (.snapshot p order) = some (st.setCall p rows) := by
    simp [step, hp, horder, rows]
  have hrows : (st.setCall p rows).calls[p]? = some rows := by
    rw [getElem?_setCall hp, if_pos rfl]
  have hreturned : ∀ err, ((st.setCall p rows).setCall p (.returned err)).calls[p]? =
      some (.returned err) := by
    intro err
    rw [getElem?_setCall hrows, if_pos rfl]
  cases saveErr with
  | none =>
    have hrename : (st.setCall p rows).step b (.rename p) =
        some { (st.setCall p rows).setCall p (.returned none) with
          file := writeUsers order, fileVersion := st.version } := by
      simp only [step, hrows, rows]
    exact ⟨[.snapshot p order, .rename p], _, .cons rfl hsnapshot (.cons rfl hrename (.nil _)),
      rfl, hreturned none⟩
  | some text =>
    have hfail : (st.setCall p rows).step b (.fail p text) =
        some ((st.setCall p rows).setCall p (.returned (some (.other text)))) := by
      simp only [step, hrows, rows]
    exact ⟨[.snapshot p order, .fail p text], _, .cons rfl hsnapshot (.cons rfl hfail (.nil _)),
      rfl, hreturned (some (.other text))⟩

theorem update_alone (b : Bcrypt)
    (hnames : ∀ name u, st.auth.users.lookup name = some u → u.username = name)
    (hp : st.calls[p]? = some (.hashed u)) (saveErr : Option String) :
    ∃ as st' err, Run (step b) always st as st' ∧ st'.calls[p]? = some (.returned err) ∧
      (st'.auth, err) = if st.auth.claimedByOther u.username u.accountID then
          (st.auth, some .accountClaimed)
        else
          ({ st.auth with users := st.auth.users.insert u.username u }, saveErr.map .other) := by
  split_ifs with hclaimed
  · have hupdate : st.step b (.update p) =
        some (st.setCall p (.returned (some .accountClaimed))) := by
      simp only [step, hp, if_pos hclaimed]
    exact ⟨[.update p], _, _, .cons rfl hupdate (.nil _),
      by rw [getElem?_setCall hp, if_pos rfl], rfl⟩
  · let st₁ : Registrations := { st.setCall p .updated with
      auth := { st.auth with users := st.auth.users.insert u.username u }
      version := st.version + 1 }
    have hupdate : st.step b (.update p) = some st₁ := by
      simp only [step, hp, if_neg hclaimed, st₁]
    have hupdated : st₁.calls[p]? = some .updated :=
      (getElem?_setCall hp .updated p).trans (if_pos rfl)
    have hnames₁ : ∀ name w, st₁.auth.users.lookup name = some w → w.username = name := by
      intro name w hw
      rcases lookup_insert_cases hw with ⟨hname, rfl⟩ | hw
      · exact hname
      · exact hnames name w hw
    obtain ⟨as, st', hrun, hauth, hcall⟩ := save_alone b hnames₁ hupdated saveErr
    exact ⟨.update p :: as, st', _, .cons rfl hupdate hrun, hcall, by rw [hauth]⟩

/-- A call during which no other takes a step does what `AuthStore.register` does. -/
theorem register_alone (b : Bcrypt)
    (hnames : ∀ name u, st.auth.users.lookup name = some u → u.username = name) (salt : ℕ)
    (saveErr : Option String) (req : RegisterRequest) :
    ∃ as st' err, Run (step b) always st as st' ∧
      st'.calls[st.calls.length]? = some (.returned err) ∧
      (st'.auth, err) = st.auth.register b salt saveErr req.username req.password req.accountID
        req.bankName := by
  let st₁ : Registrations := { st with calls := st.calls ++ [begun b salt req] }
  have hstart : st.step b (.start salt req) = some st₁ := rfl
  have hnames₁ : ∀ name u, st₁.auth.users.lookup name = some u → u.username = name := hnames
  have hbegun : st₁.calls[st.calls.length]? = some (begun b salt req) :=
    List.getElem?_concat_length
  unfold AuthStore.register
  unfold begun at hbegun
  by_cases hempty : req.username = "" ∨ req.password = ""
  · rw [if_pos hempty] at hbegun ⊢
    exact ⟨[.start salt req], st₁, _, .cons rfl hstart (.nil _), hbegun, rfl⟩
  · rw [if_neg hempty] at hbegun ⊢
    cases hhash : b.generateFromPassword salt req.password with
    | error text =>
      simp only [hhash] at hbegun
      exact ⟨[.start salt req], st₁, _, .cons rfl hstart (.nil _), hbegun, rfl⟩
    | ok hash =>
      simp only [hhash] at hbegun
      obtain ⟨as, st', err, hrun, hcall, hauth⟩ := update_alone b hnames₁ hbegun saveErr
      exact ⟨.start salt req :: as, st', err, .cons rfl hstart hrun, hcall, hauth⟩

/-! ## Any interleaving -/

/-- **Durability of registrations**: when every call that was started has returned `nil`, a gateway
that loads the file has exactly the users in the map. -/
theorem registered_durable {b : ModularBcrypt} {auth : AuthStore} {as : List Action}
    (hproper : ProperUsers auth.users) (hfile : Holds b.toBcrypt file auth.users)
    (hrun : Run (step b.toBcrypt) ordered (init auth file) as st) (hsettled : st.settled = true)
    (salts : ℕ → ℕ) : load b.toBcrypt salts (some st.file) = .ok (st.auth.users, false) := by
  have hsound : Sound b.toBcrypt st :=
    Run.invariant (I := Sound b.toBcrypt) (fun _ _ _ h hok hs => h.step hok hs) hrun
      (sound_init hproper hfile)
  exact hsound.holds_of_settled hsettled salts

/-! ### Two calls -/

/-- A package `bcrypt` whose hashes show the password. -/
def readable : ModularBcrypt where
  generateFromPassword _ password :=
    if cleanText ("$2" ++ password) then .ok ("$2" ++ password) else .error "bcrypt: unreadable"
  compareHashAndPassword hash password := hash = "$2" ++ password
  dummyHash := "$2not-a-real-password"
  compare_generate := by
    intro salt password hash h other
    split_ifs at h
    rw [← Except.ok.inj h, decide_eq_true_eq, String.append_right_inj, eq_comm]
  modular := by
    intro salt password hash h
    split_ifs at h with hclean
    rw [← Except.ok.inj h, modularHash, hclean]
    simp [String.toList_append]

def ann : Identity := ⟨"ann", "$2a", "ACC1", "ICICI"⟩

def bob : Identity := ⟨"bob", "$2b", "ACC2", "SBI"⟩

/-- The first start of a gateway, which creates the file. -/
def first : Registrations := init ⟨∅, fun _ => none⟩ (writeUsers [])

/-- Two users register; both are in the map when the second takes its rows. -/
def bothUpdate : List Action :=
  [.start 0 ⟨"ann", "a", "ACC1", "ICICI"⟩, .start 0 ⟨"bob", "b", "ACC2", "SBI"⟩, .update 0,
    .snapshot 0 [ann], .update 1, .snapshot 1 [bob, ann]]

theorem registered_durable_both :
    ∃ st, Run (step readable.toBcrypt) ordered first (bothUpdate ++ [.rename 0, .rename 1]) st ∧
      st.settled = true ∧ st.auth.users.keys = {"ann", "bob"} ∧
      load readable.toBcrypt (fun _ => 0) (some st.file) = .ok (st.auth.users, false) := by
  obtain ⟨st, hrun, hend⟩ := Run.exists_of_exec_map (step readable.toBcrypt) ordered first
    (bothUpdate ++ [.rename 0, .rename 1]) (fun st => (st.settled, st.auth.users.keys))
    (true, {"ann", "bob"}) (by decide +kernel)
  obtain ⟨hsettled, hkeys⟩ := Prod.mk.inj hend
  have hfile : Holds readable.toBcrypt (writeUsers []) ∅ :=
    holds_writeUsers _ properUsers_empty (by decide)
  exact ⟨st, hrun, hsettled, hkeys,
    registered_durable properUsers_empty hfile hrun hsettled fun _ => 0⟩

/-- Both registrations return `nil`, and the rows that were taken first are renamed last: a gateway
that loads the file does not know the second user. -/
theorem registration_lost :
    ∃ st, Run (step readable.toBcrypt) always first (bothUpdate ++ [.rename 1, .rename 0]) st ∧
      st.settled = true ∧ st.auth.users.lookup "bob" = some bob ∧
      load readable.toBcrypt (fun _ => 0) (some st.file) =
        .ok ((∅ : Users).insert "ann" ann, false) := by
  obtain ⟨st, hrun, hend⟩ := Run.exists_of_exec_map (step readable.toBcrypt) always first
    (bothUpdate ++ [.rename 1, .rename 0])
    (fun st => (st.settled, st.auth.users.lookup "bob", st.file))
    (true, some bob, writeUsers [ann]) (by decide +kernel)
  simp only [Prod.mk.injEq] at hend
  obtain ⟨hsettled, hbob, hfile⟩ := hend
  refine ⟨st, hrun, hsettled, hbob, ?_⟩
  rw [hfile]
  have hann : ann.Proper := ⟨by decide, by decide, by decide⟩
  exact holds_writeUsers _ (properUsers_empty.insert hann) (by decide) fun _ => 0

end Registrations

end PaxosPayments.Gateway
