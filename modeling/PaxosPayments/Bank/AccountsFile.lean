import PaxosPayments.Bank.Accounts
import PaxosPayments.Bank.Cents
import PaxosPayments.Bank.Ledger
import PaxosPayments.Foundations.Csv
import PaxosPayments.Foundations.Runs

/-!
# The text of the accounts file

`internal/accounts` reads and writes the rows of a `Store` as comma-separated values. A balance is
written with two decimals, and the texts of a row lose the carriage returns that stand before a
newline; what is written is read back as the rows with both changes made (`read_write`).

`AddDelta` computes the new balance from what it has read, writes it and returns it: it is returned
as it is and written rounded. In every sequence of calls in which no account is created with a
carriage return before a newline, the account ids stay unique, a delta is added to the balance
before it and leaves every other account as it is, and the next `Balance` is the value that
`AddDelta` has returned exactly if the delta is a whole number of cents (`addDelta_exact_iff`). With
such deltas the file is the `Store` of exact balances (`Sound.addDelta_exact`).
-/

namespace PaxosPayments.Bank

/-! ## Rows -/

/-- The row that `write` makes of an account. -/
def Account.row (a : Account) : Csv.Row :=
  [a.id.toList, a.username.toList, a.password.toList, a.bank.toList, (fixed2 a.balance).toList]

/-- What a text in a row is read as. -/
def joined (text : String) : String := String.ofList (Csv.joinEnds text.toList)

/-- What the row of an account is read as. -/
def Account.stored (a : Account) : Account :=
  ⟨joined a.id, joined a.username, joined a.password, joined a.bank, cents a.balance⟩

/-- No text of the account has a carriage return before a newline. -/
def Account.clean (a : Account) : Bool :=
  joined a.id = a.id && joined a.username = a.username && joined a.password = a.password &&
    joined a.bank = a.bank

theorem Account.stored_of_clean {a : Account} (h : a.clean = true) :
    a.stored = { a with balance := cents a.balance } := by
  simp only [clean, Bool.and_eq_true, decide_eq_true_eq] at h
  obtain ⟨⟨⟨hid, hname⟩, hpassword⟩, hbank⟩ := h
  rw [stored, hid, hname, hpassword, hbank]

theorem Account.stored_eq_self {a : Account} (h : a.clean = true)
    (hbalance : wholeCents a.balance = true) : a.stored = a := by
  rw [stored_of_clean h, cents_eq_self_iff.mpr hbalance]

/-- The accounts file of a bank. -/
abbrev AccountsFile := List Char

namespace AccountsFile

/-- `Header`. -/
def header : Csv.Row :=
  ["AccountId", "username", "password", "bank_name", "balance"].map String.toList

/-- `write`: the text that replaces the file. -/
def write (s : Store) : AccountsFile := Csv.write isSpace (header :: s.map Account.row)

/-- The accounts of the rows after the header; a row that is too short is skipped, and a balance
that is no number is an error. -/
def readRows : List Csv.Row → Option Store
  | [] => some []
  | (id :: username :: password :: bank :: balance :: _) :: rows => do
    let balance ← parseFloat balance
    let rest ← readRows rows
    some (⟨String.ofList id, String.ofList username, String.ofList password, String.ofList bank,
      balance⟩ :: rest)
  | _ :: rows => readRows rows

/-- `read`; `none` is any error. -/
def read (file : AccountsFile) : Option Store :=
  (Csv.read file).bind fun rows => readRows (rows.drop 1)

theorem readRows_map_row (s : Store) :
    readRows ((s.map Account.row).map (·.map Csv.joinEnds)) = some (s.map Account.stored) := by
  induction s with
  | nil => rfl
  | cons a s ih =>
    have hbalance : Csv.joinEnds (fixed2 a.balance).toList = (fixed2 a.balance).toList :=
      Csv.joinEnds_eq_self (not_mem_fixed2 (by decide) (by decide) (by decide) _)
    simp only [List.map_cons, Account.row, readRows, List.map_nil, hbalance, parseFloat_fixed2, ih]
    rfl

/-- **What a written file is read as.** -/
theorem read_write (s : Store) : read (write s) = some (s.map Account.stored) := by
  have hrow : ∀ row ∈ header :: s.map Account.row, row.length = 5 := by
    intro row hrow
    rcases List.mem_cons.mp hrow with rfl | hrow
    · rfl
    · obtain ⟨a, -, rfl⟩ := List.mem_map.mp hrow
      rfl
  have hlength : Csv.sameLength (header :: s.map Account.row) = true := by
    rw [Csv.sameLength, List.all_eq_true]
    intro row hmem
    rw [hrow row hmem]
    rfl
  have hrows : ∀ row ∈ header :: s.map Account.row, row ≠ [] ∧ row ≠ [[]] := by
    intro row hmem
    refine ⟨?_, ?_⟩ <;> rintro rfl <;> exact absurd (hrow _ hmem) (by decide)
  rw [read, write, Csv.read_write isSpace hlength hrows]
  exact readRows_map_row s

end AccountsFile

/-! ## The calls of a store -/

/-- Why a call of a store fails. -/
inductive StoreError
  /-- `ErrNotFound`. -/
  | notFound
  /-- An error of `read`. -/
  | unreadable
  /-- An error of `write`; the file has not been replaced. -/
  | unwritable
  /-- The account is registered to a different user. -/
  | registered (id : String)
  deriving DecidableEq

/-- The rows that `Create` writes; `none` if it has nothing to write. -/
def Store.create (s : Store) (a : Account) : Except StoreError (Option Store) :=
  match s.find? (·.id = a.id) with
  | none => .ok (some (s ++ [a]))
  | some existing =>
    if existing.username = a.username ∧ existing.password = a.password then .ok none
    else .error (.registered a.id)

namespace AccountsFile

/-- The file that `NewStore` leaves behind when there was none. -/
def new : AccountsFile := write []

/-- `Balance`. -/
def balance (file : AccountsFile) (id : String) : Except StoreError ℚ :=
  match read file with
  | none => .error .unreadable
  | some s =>
    match s.balance id with
    | none => .error .notFound
    | some b => .ok b

/-- `AddDelta`: the file afterwards and the result. `saved` is whether the file can be replaced. -/
def addDelta (file : AccountsFile) (saved : Bool) (id : String) (delta : ℚ) :
    AccountsFile × Except StoreError ℚ :=
  match read file with
  | none => (file, .error .unreadable)
  | some s =>
    match s.addDelta id delta with
    | none => (file, .error .notFound)
    | some (v, s') => if saved then (write s', .ok v) else (file, .error .unwritable)

/-- `Create`: the file afterwards and the error if there is one. -/
def create (file : AccountsFile) (saved : Bool) (a : Account) : AccountsFile × Option StoreError :=
  match read file with
  | none => (file, some .unreadable)
  | some s =>
    match s.create a with
    | .error err => (file, some err)
    | .ok none => (file, none)
    | .ok (some s') => if saved then (write s', none) else (file, some .unwritable)

/-- The calls that may change the file, and `Balance`. -/
inductive Call
  | create (saved : Bool) (a : Account)
  | addDelta (saved : Bool) (id : String) (delta : ℚ)
  | balance (id : String)

/-- The file after a call. The store's lock makes the calls follow one another. -/
def step (file : AccountsFile) : Call → Option AccountsFile
  | .create saved a => some (file.create saved a).1
  | .addDelta saved id delta => some (file.addDelta saved id delta).1
  | .balance _ => some file

/-- No account is created with a carriage return before a newline. -/
def cleanCall (_ : AccountsFile) : Call → Bool
  | .create _ a => a.clean
  | .addDelta _ _ _ | .balance _ => true

/-- The account with this id, as the file has it. -/
def account (file : AccountsFile) (id : String) : Option Account :=
  (read file).bind fun s => s.find? (·.id = id)

/-- The file can be read, and no two rows have the same id. -/
def uniqueIDs (file : AccountsFile) : Bool :=
  match read file with
  | none => false
  | some s => (s.map Account.id).Nodup

/-! ## Every sequence of calls -/

/-- The file is read as the rows `s`. Their ids are unique, and nothing would be lost if they were
written again. -/
structure Sound (file : AccountsFile) (s : Store) : Prop where
  reads : read file = some s
  unique : (s.map Account.id).Nodup
  clean : ∀ a ∈ s, a.clean = true
  whole : ∀ a ∈ s, wholeCents a.balance = true

variable {file file' : AccountsFile} {s s' : Store} {id : String} {delta v : ℚ} {saved : Bool}

/-- The rows that were read are written as they are. -/
theorem Sound.map_stored (h : Sound file s) {t : Store} (ht : ∀ a ∈ t, a ∈ s) :
    t.map Account.stored = t := by
  have hsame : ∀ a ∈ t, a.stored = a := fun a ha =>
    Account.stored_eq_self (h.clean a (ht a ha)) (h.whole a (ht a ha))
  exact (List.map_congr_left hsame).trans (List.map_id t)

/-- Rows with unique ids are written so that they can be read. -/
theorem sound_write (hunique : (s.map Account.id).Nodup) (hclean : ∀ a ∈ s, a.clean = true) :
    Sound (write s) (s.map Account.stored) where
  reads := read_write s
  unique := by
    have hids : (s.map Account.stored).map Account.id = s.map Account.id := by
      rw [List.map_map]
      refine List.map_congr_left fun a ha => ?_
      rw [Function.comp_apply, Account.stored_of_clean (hclean a ha)]
    rwa [hids]
  clean a ha := by
    obtain ⟨b, hb, rfl⟩ := List.mem_map.mp ha
    rw [Account.stored_of_clean (hclean b hb)]
    exact hclean b hb
  whole a ha := by
    obtain ⟨b, hb, rfl⟩ := List.mem_map.mp ha
    exact wholeCents_cents b.balance

theorem sound_new : Sound new [] := sound_write (s := []) List.nodup_nil (by simp)

theorem Sound.account_eq (h : Sound file s) (id : String) :
    file.account id = s.find? (·.id = id) := by
  rw [account, h.reads, Option.bind_some]

theorem balance_of_account {a : Account} (h : file.account id = some a) :
    file.balance id = .ok a.balance := by
  obtain ⟨s, hs, ha⟩ := Option.bind_eq_some_iff.mp h
  rw [balance, hs]
  dsimp only
  rw [Store.balance_eq_find?, ha]
  rfl

/-- The rows that `AddDelta` writes are read with the new balance rounded. -/
theorem Sound.write_addDelta (h : Sound file s) (hs : s.addDelta id delta = some (v, s')) :
    ∃ s₁ a s₂, s = s₁ ++ a :: s₂ ∧ (∀ b ∈ s₁, b.id ≠ id) ∧ a.id = id ∧ v = a.balance + delta ∧
      s' = s₁ ++ { a with balance := v } :: s₂ ∧
      Sound (write s') (s₁ ++ { a with balance := cents v } :: s₂) := by
  obtain ⟨s₁, a, s₂, rfl, hbefore, ha, hv, rfl⟩ := Store.addDelta_eq_some hs
  refine ⟨s₁, a, s₂, rfl, hbefore, ha, hv, rfl, ?_⟩
  have hclean : ∀ b ∈ s₁ ++ { a with balance := v } :: s₂, b.clean = true := by
    intro b hb
    rcases List.mem_append.mp hb with hb | hb
    · exact h.clean b (List.mem_append_left _ hb)
    rcases List.mem_cons.mp hb with rfl | hb
    · exact h.clean a (by simp)
    · exact h.clean b (by simp [hb])
  have hsound := sound_write (by simpa using h.unique) hclean
  have hstored : (s₁ ++ { a with balance := v } :: s₂).map Account.stored =
      s₁ ++ { a with balance := cents v } :: s₂ := by
    rw [List.map_append, List.map_cons, h.map_stored (by simp +contextual),
      h.map_stored (by simp +contextual), Account.stored_of_clean (hclean _ (by simp))]
  rwa [hstored] at hsound

/-- **With a whole number of cents the file is the store of exact balances.** -/
theorem Sound.addDelta_exact (h : Sound file s) (hs : s.addDelta id delta = some (v, s'))
    (hdelta : wholeCents delta = true) :
    file.addDelta true id delta = (write s', .ok v) ∧ Sound (write s') s' := by
  refine ⟨?_, ?_⟩
  · unfold AccountsFile.addDelta
    rw [h.reads]
    dsimp only
    rw [hs]
    rfl
  · obtain ⟨s₁, a, s₂, rfl, -, -, hv, rfl, hsound⟩ := h.write_addDelta hs
    have hwhole : wholeCents v = true := by
      rwa [hv, wholeCents_add (h.whole a (by simp))]
    rwa [cents_eq_self_iff.mpr hwhole] at hsound

/-- What `AddDelta` does to the accounts of the file. -/
theorem Sound.account_addDelta (h : Sound file s) (hs : s.addDelta id delta = some (v, s')) :
    ∃ a t, file.account id = some a ∧ wholeCents a.balance = true ∧ v = a.balance + delta ∧
      Sound (write s') t ∧ (write s').account id = some { a with balance := cents v } ∧
      ∀ other, other ≠ id → (write s').account other = file.account other := by
  obtain ⟨s₁, a, s₂, rfl, hbefore, ha, hv, -, hsound⟩ := h.write_addDelta hs
  -- the first account with the id is the one that is found
  have hfind : ∀ b : Account, b.id = id → (s₁ ++ b :: s₂).find? (·.id = id) = some b := by
    intro b hb
    have hnone : s₁.find? (·.id = id) = none := by simpa using hbefore
    rw [List.find?_append, hnone, List.find?_cons_of_pos (by simpa using hb)]
    rfl
  refine ⟨a, _, (h.account_eq id).trans (hfind a ha), h.whole a (by simp), hv, hsound,
    (hsound.account_eq id).trans (hfind _ ha), fun other hother => ?_⟩
  have hne : a.id ≠ other := fun h => hother (h.symm.trans ha)
  rw [hsound.account_eq, h.account_eq, List.find?_append, List.find?_append,
    List.find?_cons_of_neg (by simpa using hne), List.find?_cons_of_neg (by simpa using hne)]

theorem Sound.addDelta_eq_ok (h : Sound file s)
    (hcall : file.addDelta saved id delta = (file', .ok v)) :
    ∃ s', s.addDelta id delta = some (v, s') ∧ file' = write s' := by
  unfold AccountsFile.addDelta at hcall
  rw [h.reads] at hcall
  dsimp only at hcall
  split at hcall
  · cases hcall
  · rename_i v' s' hs'
    split_ifs at hcall
    · obtain ⟨rfl, hv⟩ := Prod.mk.inj hcall
      obtain rfl := Except.ok.inj hv
      exact ⟨s', hs', rfl⟩
    · cases hcall

theorem Sound.addDelta (h : Sound file s) (saved : Bool) (id : String) (delta : ℚ) :
    ∃ t, Sound (file.addDelta saved id delta).1 t := by
  unfold AccountsFile.addDelta
  rw [h.reads]
  dsimp only
  split
  · exact ⟨s, h⟩
  · rename_i v s' hs'
    split_ifs
    · obtain ⟨-, t, -, -, -, hsound, -⟩ := h.account_addDelta hs'
      exact ⟨t, hsound⟩
    · exact ⟨s, h⟩

/-- What `Create` writes for an account that is not in the file. -/
theorem Sound.write_create (h : Sound file s) {a : Account} (ha : a.clean = true)
    (hs : s.create a = .ok (some s')) : (∀ b ∈ s, b.id ≠ a.id) ∧
      Sound (write s') (s ++ [{ a with balance := cents a.balance }]) := by
  unfold Store.create at hs
  split at hs
  · rename_i hnone
    obtain rfl := Option.some.inj (Except.ok.inj hs)
    have hfresh : ∀ b ∈ s, b.id ≠ a.id := by simpa using hnone
    have hunique : ((s ++ [a]).map Account.id).Nodup := by
      rw [List.map_append, List.nodup_append]
      refine ⟨h.unique, by simp, ?_⟩
      intro _ hid _ ha'
      obtain ⟨b, hb, rfl⟩ := List.mem_map.mp hid
      obtain rfl : _ = a.id := by simpa using ha'
      exact hfresh b hb
    have hclean : ∀ b ∈ s ++ [a], b.clean = true := by
      intro b hb
      rcases List.mem_append.mp hb with hb | hb
      · exact h.clean b hb
      · obtain rfl := List.mem_singleton.mp hb
        exact ha
    have hsound := sound_write hunique hclean
    rw [List.map_append, h.map_stored fun b hb => hb, List.map_singleton,
      Account.stored_of_clean ha] at hsound
    exact ⟨hfresh, hsound⟩
  · split_ifs at hs
    cases hs

/-- What a `Create` that writes does to the accounts of the file. -/
theorem Sound.account_create (h : Sound file s) {a : Account} (ha : a.clean = true)
    (hs : s.create a = .ok (some s')) : file.account a.id = none ∧
      (write s').account a.id = some { a with balance := cents a.balance } ∧
      ∀ other, other ≠ a.id → (write s').account other = file.account other := by
  obtain ⟨hfresh, hsound⟩ := h.write_create ha hs
  have hnone : s.find? (·.id = a.id) = none := by simpa using hfresh
  refine ⟨(h.account_eq _).trans hnone, ?_, fun other hother => ?_⟩
  · rw [hsound.account_eq, List.find?_append, hnone, List.find?_cons_of_pos (by simp)]
    rfl
  · rw [hsound.account_eq, h.account_eq, List.find?_append,
      List.find?_cons_of_neg (by simpa using Ne.symm hother)]
    simp

theorem Sound.create (h : Sound file s) (saved : Bool) {a : Account} (ha : a.clean = true) :
    ∃ t, Sound (file.create saved a).1 t := by
  unfold AccountsFile.create
  rw [h.reads]
  dsimp only
  split
  · exact ⟨s, h⟩
  · exact ⟨s, h⟩
  · rename_i s' hs'
    split_ifs
    · exact ⟨_, (h.write_create ha hs').2⟩
    · exact ⟨s, h⟩

/-- Every file that clean calls lead to is sound. -/
theorem sound_of_run {calls : List Call} (h : Run step cleanCall new calls file) :
    ∃ s, Sound file s := by
  refine h.invariant (I := fun file => ∃ s, Sound file s) ?_ ⟨[], sound_new⟩
  rintro file call file' ⟨s, hs⟩ hok hstep
  cases call with
  | create saved a =>
    obtain rfl := Option.some.inj hstep
    exact hs.create saved hok
  | addDelta saved id delta =>
    obtain rfl := Option.some.inj hstep
    exact hs.addDelta saved id delta
  | balance id =>
    obtain rfl := Option.some.inj hstep
    exact ⟨s, hs⟩

/-- **What a committed leg does to the file.** -/
theorem addDelta_exact_iff {calls : List Call} (h : Run step cleanCall new calls file)
    (hcall : file.addDelta saved id delta = (file', .ok v)) :
    (∃ before, file.balance id = .ok before ∧ v = before + delta) ∧
      (∀ other, other ≠ id → file'.account other = file.account other) ∧
      file'.uniqueIDs = true ∧
      (file'.balance id = .ok v ↔ wholeCents delta = true) := by
  obtain ⟨s, hs⟩ := sound_of_run h
  obtain ⟨s', hs', rfl⟩ := hs.addDelta_eq_ok hcall
  obtain ⟨a, t, ha, hwhole, hv, hsound, haccount, hothers⟩ := hs.account_addDelta hs'
  refine ⟨⟨a.balance, balance_of_account ha, hv⟩, hothers, ?_, ?_⟩
  · rw [uniqueIDs, hsound.reads]
    exact decide_eq_true hsound.unique
  · rw [balance_of_account haccount]
    calc Except.ok (cents v) = (.ok v : Except StoreError ℚ)
        ↔ cents v = v := by rw [Except.ok.injEq]
      _ ↔ wholeCents v = true := cents_eq_self_iff
      _ ↔ wholeCents delta = true := by rw [hv, wholeCents_add hwhole]

/-- A file with one account. -/
def oneAccount : AccountsFile := (new.create true ⟨"a", "ann", "", "X", 10⟩).1

theorem addDelta_exact_quarter :
    let file' := (oneAccount.addDelta true "a" (-9 / 4)).1
    file'.balance "a" = .ok (31 / 4) ∧ file'.uniqueIDs = true := by
  have hrun : Run step cleanCall new [.create true ⟨"a", "ann", "", "X", 10⟩] oneAccount :=
    Run.of_exec (by decide +kernel)
  have hcall : oneAccount.addDelta true "a" (-9 / 4) =
      ((oneAccount.addDelta true "a" (-9 / 4)).1, .ok (31 / 4)) := by decide +kernel
  obtain ⟨-, -, hunique, hexact⟩ := addDelta_exact_iff hrun hcall
  exact ⟨hexact.mpr (by decide +kernel), hunique⟩

/-- **A tenth of a cent is acknowledged and not kept.** An account that is created twice with a
carriage return before a newline in its id is in the file twice. -/
theorem addDelta_rounded :
    let file' := (oneAccount.addDelta true "a" (1 / 1000)).1
    let b : Account := ⟨"b\r\nc", "bob", "", "X", 0⟩
    let twice := (oneAccount.create true b).1.create true b
    ((oneAccount.addDelta true "a" (1 / 1000)).2 = .ok (10001 / 1000) ∧
      file'.balance "a" = .ok 10) ∧ twice.2 = none ∧ twice.1.uniqueIDs = false := by
  decide +kernel

end AccountsFile

end PaxosPayments.Bank
