import PaxosPayments.Bank.AccountsFile
import PaxosPayments.Foundations.Replacement

/-!
# Accounts that are seeded while the bank runs

`seedBankAccount` of the client writes a row into the accounts file of a bank, past the bank and in
another process. Both sides read the whole file and put a new one in its place, and the lock of a
`Store` keeps only the calls of one process apart.

In every run in which a replacement lands only while the file is as its call has read it, and no
account is created with a carriage return before a newline, the file has every account whose
`Create` has returned `nil`, and every balance is what the deltas make of it whose `AddDelta` has
returned `nil` (`nothing_lost`). So what was seeded stays (`account_of_seedBankAccount`). With whole
numbers of cents a balance is the opening balance and the sum of the deltas (`foldl_balanceAfter`).
A replacement that lands on a file which has changed since takes the other side's account or delta
back (`seed_lost`).
-/

namespace PaxosPayments.Bank.Seeding

open AccountsFile

/-- What the two processes do with the file. -/
inductive Call
  /-- `NewStore`, of which the file is missing or not. -/
  | newStore
  | create (a : Account)
  | addDelta (id : String) (delta : ℚ)
  deriving DecidableEq

/-- An error, or `nil` with the value that `AddDelta` returns. -/
abbrev Result := Except StoreError (Option ℚ)

/-- What a call makes of the rows it has read. -/
def computeRows (s : Store) : Call → Option Store × Result
  | .newStore => (none, .ok none)
  | .create a =>
    match s.create a with
    | .error err => (none, .error err)
    | .ok rows => (rows, .ok none)
  | .addDelta id delta =>
    match s.addDelta id delta with
    | none => (none, .error .notFound)
    | some (v, s') => (some s', .ok (some v))

/-- What a call makes of the file it has read; `none` is a missing file. `NewStore` only asks
whether there is one. -/
def compute : Option AccountsFile → Call → Option (Option AccountsFile) × Result
  | none, .newStore => (some (some AccountsFile.new), .ok none)
  | some _, .newStore => (none, .ok none)
  | none, _ => (none, .error .unreadable)
  | some file, c =>
    match read file with
    | none => (none, .error .unreadable)
    | some s => ((computeRows s c).1.map fun s' => some (write s'), (computeRows s c).2)

theorem compute_of_read {file : AccountsFile} {s : Store} (h : read file = some s) (c : Call) :
    compute (some file) c =
      ((computeRows s c).1.map fun s' => some (write s'), (computeRows s c).2) := by
  cases c with
  | newStore => rfl
  | create a => simp only [compute, h]
  | addDelta id delta => simp only [compute, h]

/-- What a freshly seeded demo account starts with. -/
def openingBalance : ℚ := 1000

/-- The calls of `seedBankAccount` on one data directory. -/
def seedBankAccount (accountID username password bankName : String) : List Call :=
  [.newStore, .create ⟨accountID, username, password, bankName, openingBalance⟩]

/-- A call that nothing comes between is a call of the store. -/
theorem compute_create {file : AccountsFile} {s : Store} (h : read file = some s) (a : Account) :
    (compute (some file) (.create a)).1.getD (some file) = some (file.create true a).1 := by
  rw [compute_of_read h, AccountsFile.create, h]
  dsimp only [computeRows]
  cases s.create a with
  | error err => rfl
  | ok rows => cases rows <;> rfl

theorem compute_addDelta {file : AccountsFile} {s : Store} (h : read file = some s) (id : String)
    (delta : ℚ) : (compute (some file) (.addDelta id delta)).1.getD (some file) =
      some (file.addDelta true id delta).1 := by
  rw [compute_of_read h, AccountsFile.addDelta, h]
  dsimp only [computeRows]
  cases s.addDelta id delta with
  | none => rfl
  | some rows => rfl

/-! ## What the file owes to the calls that have returned -/

def accountIn (file : Option AccountsFile) (id : String) : Option Account :=
  file.bind fun file => file.account id

theorem accountIn_some (file : AccountsFile) (id : String) :
    accountIn (some file) id = file.account id := rfl

def balanceIn (file : Option AccountsFile) (id : String) : Option ℚ :=
  (accountIn file id).map Account.balance

/-- The balance of an account after a call that has returned: a `Create` opens the account, and a
delta is added. -/
def balanceAfter (id : String) : Option ℚ → Call × Result → Option ℚ
  | none, (.create a, .ok _) => if a.id = id then some (cents a.balance) else none
  | some b, (.addDelta account delta, .ok _) =>
    if account = id then some (cents (b + delta)) else some b
  | b, _ => b

/-- Nothing that was acknowledged is lost. -/
structure Reflected (file₀ : Option AccountsFile) (returned : List (Call × Result))
    (file : Option AccountsFile) : Prop where
  created : ∀ a v, (.create a, .ok v) ∈ returned → ∃ b, accountIn file a.id = some b ∧
    b.username = a.username ∧ b.password = a.password
  balance : ∀ id, balanceIn file id = returned.foldl (balanceAfter id) (balanceIn file₀ id)

/-- The file is missing, or a file that the stores have written. -/
def Readable (file : Option AccountsFile) : Prop := ∀ f, file = some f → ∃ s, Sound f s

/-- No account is created with a carriage return before a newline. -/
def Call.clean : Call → Bool
  | .create a => a.clean
  | .newStore | .addDelta _ _ => true

variable {file₀ file file' : Option AccountsFile} {returned : List (Call × Result)}

/-- A call that returns keeps the file in step with the calls if it keeps the users of the accounts
and changes the balances as it should. -/
theorem Reflected.snoc (h : Reflected file₀ returned file) {c : Call} {r : Result}
    (hcreated : ∀ a v, c = .create a → r = .ok v → ∃ b, accountIn file' a.id = some b ∧
      b.username = a.username ∧ b.password = a.password)
    (hkept : ∀ id b, accountIn file id = some b → ∃ b', accountIn file' id = some b' ∧
      b'.username = b.username ∧ b'.password = b.password)
    (hbalance : ∀ id, balanceIn file' id = balanceAfter id (balanceIn file id) (c, r)) :
    Reflected file₀ (returned ++ [(c, r)]) file' where
  created a v ha := by
    rcases List.mem_append.mp ha with ha | ha
    · obtain ⟨b, hb, hname, hpassword⟩ := h.created a v ha
      obtain ⟨b', hb', hname', hpassword'⟩ := hkept _ b hb
      exact ⟨b', hb', hname'.trans hname, hpassword'.trans hpassword⟩
    · obtain ⟨rfl, rfl⟩ := Prod.mk.inj (List.mem_singleton.mp ha)
      exact hcreated a v rfl rfl
  balance id := by rw [List.foldl_append, ← h.balance, List.foldl_cons, List.foldl_nil, hbalance]

/-- A call that leaves the file as it is and does not change what is expected of it. -/
theorem Reflected.unchanged (h : Reflected file₀ returned file) {c : Call} {r : Result}
    (hcreated : ∀ a v, c = .create a → r = .ok v → ∃ b, accountIn file a.id = some b ∧
      b.username = a.username ∧ b.password = a.password)
    (hbalance : ∀ id, balanceAfter id (balanceIn file id) (c, r) = balanceIn file id) :
    Reflected file₀ (returned ++ [(c, r)]) file :=
  h.snoc hcreated (fun _ b hb => ⟨b, hb, rfl, rfl⟩) fun id => (hbalance id).symm

/-- A `Create` that has nothing to write has found the account with the same credentials. -/
theorem create_eq_none {s : Store} {a : Account} (h : s.create a = .ok none) :
    ∃ b, s.find? (·.id = a.id) = some b ∧ b.username = a.username ∧ b.password = a.password := by
  unfold Store.create at h
  split at h
  · cases h
  · rename_i b hb
    split_ifs at h with hsame
    exact ⟨b, hb, hsame⟩

/-- The account that a call is about. -/
def Call.account : Call → Option String
  | .newStore => none
  | .create a => some a.id
  | .addDelta id _ => some id

theorem balanceAfter_of_ne {id : String} (b : Option ℚ) {c : Call} (r : Result)
    (h : c.account ≠ some id) : balanceAfter id b (c, r) = b := by
  cases c with
  | newStore => cases b <;> rfl
  | create a =>
    have hne : a.id ≠ id := fun hid => h (congrArg some hid)
    cases b <;> cases r <;> simp [balanceAfter, hne]
  | addDelta account delta =>
    have hne : account ≠ id := fun hid => h (congrArg some hid)
    cases b <;> cases r <;> simp [balanceAfter, hne]

theorem balanceAfter_error (id : String) (b : Option ℚ) (c : Call) (err : StoreError) :
    balanceAfter id b (c, .error err) = b := by
  cases b <;> cases c <;> rfl

/-- A failed call changes nothing. -/
theorem Reflected.error (h : Reflected file₀ returned file) (c : Call) (err : StoreError) :
    Reflected file₀ (returned ++ [(c, .error err)]) file :=
  h.unchanged (fun _ _ _ hr => by cases hr) fun id => balanceAfter_error id _ c err

theorem Reflected.newStore (h : Reflected file₀ returned file) (hr : Readable file) :
    Readable ((compute file .newStore).1.getD file) ∧
      Reflected file₀ (returned ++ [(.newStore, (compute file .newStore).2)])
        ((compute file .newStore).1.getD file) := by
  cases file with
  | none =>
    refine ⟨fun f hf => ⟨[], ?_⟩, h.snoc (fun _ _ ha => by cases ha) (fun _ _ hb => by cases hb) ?_⟩
    · obtain rfl := Option.some.inj hf
      exact sound_new
    · intro id
      refine Eq.trans ?_ (balanceAfter_of_ne none _ (by simp [Call.account])).symm
      simp [compute, balanceIn, accountIn, sound_new.account_eq]
  | some file => exact ⟨hr, h.unchanged (fun _ _ ha => by cases ha) fun id =>
      balanceAfter_of_ne _ _ (by simp [Call.account])⟩

/-- A `Create` that has nothing to write: the account is there already, with these credentials. -/
theorem Reflected.create_existing (h : Reflected file₀ returned file) {a b : Account}
    (hin : accountIn file a.id = some b) (hname : b.username = a.username)
    (hpassword : b.password = a.password) (r : Result) :
    Reflected file₀ (returned ++ [(.create a, r)]) file := by
  refine h.unchanged (fun a' v ha' _ => ?_) fun id => ?_
  · obtain rfl := Call.create.inj ha'
    exact ⟨b, hin, hname, hpassword⟩
  · by_cases hid : a.id = id
    · subst hid
      rw [balanceIn, hin]
      rfl
    · exact balanceAfter_of_ne _ _ fun h => hid (Option.some.inj h)

/-- A `Create` that has written the account and left the others as they were. -/
theorem Reflected.create_new (h : Reflected file₀ returned file) {a : Account}
    (hnone : accountIn file a.id = none)
    (hnew : accountIn file' a.id = some { a with balance := cents a.balance })
    (hothers : ∀ id, id ≠ a.id → accountIn file' id = accountIn file id) (v : Option ℚ) :
    Reflected file₀ (returned ++ [(.create a, .ok v)]) file' := by
  refine h.snoc (fun a' v ha' _ => ?_) (fun id b hb => ?_) fun id => ?_
  · obtain rfl := Call.create.inj ha'
    exact ⟨_, hnew, rfl, rfl⟩
  · have hid : id ≠ a.id := by
      rintro rfl
      rw [hnone] at hb
      cases hb
    exact ⟨b, (hothers id hid).trans hb, rfl, rfl⟩
  · by_cases hid : id = a.id
    · subst hid
      rw [balanceIn, balanceIn, hnew, hnone]
      exact (if_pos rfl).symm
    · have hne : (Call.create a).account ≠ some id := fun h => hid (Option.some.inj h).symm
      rw [balanceAfter_of_ne _ _ hne, balanceIn, balanceIn, hothers id hid]

theorem Reflected.create {a : Account} (ha : a.clean = true) (h : Reflected file₀ returned file)
    (hr : Readable file) : Readable ((compute file (.create a)).1.getD file) ∧
      Reflected file₀ (returned ++ [(.create a, (compute file (.create a)).2)])
        ((compute file (.create a)).1.getD file) := by
  cases file with
  | none => exact ⟨hr, h.error _ _⟩
  | some file =>
    obtain ⟨s, hs⟩ := hr file rfl
    rw [compute_of_read hs.reads]
    dsimp only [computeRows]
    cases hcreate : s.create a with
    | error err => exact ⟨hr, h.error _ _⟩
    | ok rows =>
      cases rows with
      | none =>
        obtain ⟨b, hb, hname, hpassword⟩ := create_eq_none hcreate
        simp only [Option.map_none, Option.getD_none]
        exact ⟨hr, h.create_existing ((hs.account_eq a.id).trans hb) hname hpassword _⟩
      | some s' =>
        obtain ⟨hnone, hnew, hothers⟩ := hs.account_create ha hcreate
        simp only [← accountIn_some] at hnone hnew hothers
        simp only [Option.map_some, Option.getD_some]
        refine ⟨fun f hf => ?_, h.create_new hnone hnew hothers _⟩
        obtain rfl := Option.some.inj hf
        exact ⟨_, (hs.write_create ha hcreate).2⟩

theorem Reflected.addDelta (h : Reflected file₀ returned file) (hr : Readable file) (id : String)
    (delta : ℚ) : Readable ((compute file (.addDelta id delta)).1.getD file) ∧
      Reflected file₀ (returned ++ [(.addDelta id delta, (compute file (.addDelta id delta)).2)])
        ((compute file (.addDelta id delta)).1.getD file) := by
  cases file with
  | none => exact ⟨hr, h.error _ _⟩
  | some file =>
    obtain ⟨s, hs⟩ := hr file rfl
    rw [compute_of_read hs.reads]
    dsimp only [computeRows]
    cases hadd : s.addDelta id delta with
    | none => exact ⟨hr, h.error _ _⟩
    | some rows =>
      obtain ⟨v, s'⟩ := rows
      obtain ⟨a, t, ha, -, hv, hsound, hnew, hothers⟩ := hs.account_addDelta hadd
      simp only [← accountIn_some] at ha hnew hothers
      simp only [Option.map_some, Option.getD_some]
      refine ⟨fun f hf => ?_, h.snoc (fun _ _ hc => by cases hc) (fun other b hb => ?_) ?_⟩
      · obtain rfl := Option.some.inj hf
        exact ⟨t, hsound⟩
      · by_cases hid : other = id
        · subst hid
          obtain rfl := Option.some.inj (ha.symm.trans hb)
          exact ⟨_, hnew, rfl, rfl⟩
        · exact ⟨b, (hothers other hid).trans hb, rfl, rfl⟩
      · intro other
        by_cases hid : other = id
        · subst hid
          rw [balanceIn, balanceIn, hnew, ha, Option.map_some, Option.map_some, balanceAfter,
            if_pos rfl, ← hv]
        · have hne : (Call.addDelta id delta).account ≠ some other :=
            fun h => hid (Option.some.inj h).symm
          rw [balanceAfter_of_ne _ _ hne, balanceIn, balanceIn, hothers other hid]

/-- Calls that follow one another lose nothing. -/
theorem reflected_of_serial (hr : Readable file₀) (h : Shared.Serial compute file₀ returned file)
    (hclean : ∀ x ∈ returned, x.1.clean = true) :
    Readable file ∧ Reflected file₀ returned file := by
  induction h with
  | nil =>
    refine ⟨hr, ⟨fun a v ha => ?_, fun id => rfl⟩⟩
    cases ha
  | @snoc returned file c _ ih =>
    obtain ⟨hr, h⟩ := ih fun x hx => hclean x (List.mem_append_left _ hx)
    have hc : c.clean = true := hclean (c, (compute file c).2) (by simp)
    cases c with
    | newStore => exact h.newStore hr
    | create a => exact h.create hc hr
    | addDelta id delta => exact h.addDelta hr id delta

/-! ## Processes that take no turns -/

variable {P : Type} [DecidableEq P]

/-- A replacement lands only on the file that its call has read, and accounts are created clean. -/
def kept (s : Shared P (Option AccountsFile) Call Result) (a : Shared.Action P Call) : Bool :=
  s.undisturbed a &&
    match a with
    | .call _ c => c.clean
    | .replace _ | .fail _ => true

section

variable {as : List (Shared.Action P Call)} {s : Shared P (Option AccountsFile) Call Result}

/-- The calls take effect one after the other, in the order in which they return. -/
theorem serial_of_kept (h : Run (Shared.step compute) kept (.start file₀) as s) :
    Shared.Serial compute file₀ s.returned s.file ∧ ∀ x ∈ s.returned, x.1.clean = true :=
  Shared.serial_of_run (Q := fun c => c.clean = true)
    (fun _ _ ha => (Bool.and_eq_true_iff.mp ha).1) (fun _ _ _ ha => (Bool.and_eq_true_iff.mp ha).2)
    h

/-- **Nothing that was acknowledged is lost**, as long as no replacement lands on a file that its
call has not read. -/
theorem nothing_lost (hr : Readable file₀)
    (h : Run (Shared.step compute) kept (.start file₀) as s) :
    Reflected file₀ s.returned s.file := by
  obtain ⟨hserial, hclean⟩ := serial_of_kept h
  exact (reflected_of_serial hr hserial hclean).2

/-- An account that `seedBankAccount` has reported as present is in the file from then on, and is
that of its user. -/
theorem account_of_seedBankAccount (hr : Readable file₀)
    (h : Run (Shared.step compute) kept (.start file₀) as s)
    {accountID username password bankName : String}
    (hseed : ∀ c ∈ seedBankAccount accountID username password bankName,
      ∃ v, (c, .ok v) ∈ s.returned) :
    ∃ b, accountIn s.file accountID = some b ∧ b.username = username ∧ b.password = password := by
  obtain ⟨hserial, hclean⟩ := serial_of_kept h
  obtain ⟨v, hv⟩ := hseed (.create ⟨accountID, username, password, bankName, openingBalance⟩)
    (by simp [seedBankAccount])
  exact (reflected_of_serial hr hserial hclean).2.created _ v hv

end

/-- The two processes. -/
inductive Process
  | client
  | bank
  deriving DecidableEq

/-- The rows of two users. -/
def ann : Account := ⟨"a", "ann", "", "X", openingBalance⟩

def bob : Account := ⟨"b", "bob", "", "X", 10⟩

/-- A client seeds the first account of a bank, which debits it afterwards. The bank asks for it too
early as well. -/
theorem nothing_lost_seeded : ∃ s : Shared Process (Option AccountsFile) Call Result,
    s.returned = [(.newStore, .ok none), (.addDelta "a" (-5), .error .notFound),
      (.create ann, .ok none), (.addDelta "a" (-5), .ok (some 995))] ∧
    Reflected none s.returned s.file := by
  obtain ⟨s, hrun, hreturned⟩ := Run.exists_of_exec_map (Shared.step compute) kept (.start none)
    [.call Process.client .newStore, .replace .client, .call .client (.create ann),
      .call .bank (.addDelta "a" (-5)), .replace .client, .call .bank (.addDelta "a" (-5)),
      .replace .bank]
    Shared.returned [(.newStore, .ok none), (.addDelta "a" (-5), .error .notFound),
      (.create ann, .ok none), (.addDelta "a" (-5), .ok (some 995))] (by decide +kernel)
  exact ⟨s, hreturned, nothing_lost (fun f hf => by cases hf) hrun⟩

/-- The calls that have returned after these actions on the file of `bob`, the account of `ann` and
the balance of `bob`. -/
def afterBob (as : List (Shared.Action Process Call)) :
    Option (List (Call × Result) × Option Account × Option ℚ) :=
  (exec (Shared.step compute) always (.start (some (write [bob]))) as).map fun s =>
    (s.returned, accountIn s.file "a", balanceIn s.file "b")

/-- **The side that replaces the file last wins.** The bank has read the file before the client
replaces it, and the account that was seeded is gone; the client has read it before the bank
replaces it, and the credit is. -/
theorem seed_lost :
    afterBob [.call .bank (.addDelta "b" 5), .call .client (.create ann), .replace .client,
        .replace .bank] =
      some ([(.create ann, .ok none), (.addDelta "b" 5, .ok (some 15))], none, some 15) ∧
    afterBob [.call .client (.create ann), .call .bank (.addDelta "b" 5), .replace .bank,
        .replace .client] =
      some ([(.addDelta "b" 5, .ok (some 15)), (.create ann, .ok none)], some ann, some 10) := by
  constructor <;> decide +kernel

/-! ## Whole numbers of cents -/

/-- The deltas of an account whose `AddDelta` has returned `nil`. -/
def deltas (id : String) : List (Call × Result) → List ℚ
  | [] => []
  | (.addDelta account delta, .ok _) :: returned =>
    if account = id then delta :: deltas id returned else deltas id returned
  | _ :: returned => deltas id returned

/-- Deltas that are whole numbers of cents add up. -/
theorem foldl_balanceAfter (id : String) {b : ℚ} (hb : wholeCents b = true)
    (hdeltas : ∀ delta ∈ deltas id returned, wholeCents delta = true) :
    returned.foldl (balanceAfter id) (some b) = some (b + (deltas id returned).sum) := by
  induction returned generalizing b with
  | nil => simp [deltas]
  | cons x returned ih =>
    obtain ⟨c, r⟩ := x
    rw [List.foldl_cons]
    cases c with
    | newStore => exact ih hb hdeltas
    | create a => exact ih hb hdeltas
    | addDelta account delta =>
      cases r with
      | error err => exact ih hb hdeltas
      | ok v =>
        rw [deltas] at hdeltas ⊢
        rw [balanceAfter]
        split_ifs at hdeltas ⊢ with hid
        · obtain ⟨hdelta, hdeltas⟩ := List.forall_mem_cons.mp hdeltas
          have hsum : wholeCents (b + delta) = true := by rwa [wholeCents_add hb]
          rw [cents_eq_self_iff.mpr hsum, ih hsum hdeltas, List.sum_cons, add_assoc]
        · exact ih hb hdeltas

end PaxosPayments.Bank.Seeding
