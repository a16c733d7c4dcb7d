import PaxosPayments.Foundations.Quoted
import PaxosPayments.Foundations.Runs
import PaxosPayments.Foundations.Tables
import PaxosPayments.Status
import Mathlib.Data.Finmap

/-!
# How the gateway finds the leader of a bank

`gateway/registry.go` keeps one address for each bank. In `bank/main.go` each replica of a bank runs
`watchLeadership`: it looks at its role from time to time, and when it has become leader since it
last looked it tells the gateway its address, in up to five attempts (`announceWithRetry`).

Replicas become leaders and stop leading in any order, several may lead at once. A request to the
gateway is executed at any later time, or lost, and the attempt that has sent it ends with the
answer, or with an error at any time. An announcement has nothing in it by which the gateway could
tell that it is an old one, and a loop that looks twice while its replica leads does not see that
another one has led in between (`misrouted`). `routed` has conditions under which the gateway has
the address of the only leader as soon as all announcements have come through.
-/

namespace PaxosPayments.Gateway

/-- `bankRegistry`: the address of each bank. -/
abbrev Registry := Finmap fun _ : String => String

namespace Registry

variable {reg : Registry} {name address : String} {dial : Option String}

/-- `register`; `dial` is the error of `grpc.NewClient`. -/
def register (reg : Registry) (name address : String) (dial : Option String) :
    Registry × Option String :=
  if reg.lookup name = some address then (reg, none)
  else
    match dial with
    | some e => (reg, some ("connect to bank " ++ name ++ " at " ++ address ++ ": " ++ e))
    | none => (reg.insert name address, none)

/-- The address that the client of a bank is connected to. -/
def client (reg : Registry) (name : String) : Except Status String :=
  match reg.lookup name with
  | none =>
    .error ⟨.notFound, "bank " ++ Quoted.quote name ++ " is not registered with this gateway"⟩
  | some address => .ok address

/-- The handler `BankRegister`. -/
def bankRegister (reg : Registry) (name address : String) (dial : Option String) :
    Registry × Option Status :=
  if name = "" ∨ address = "" then
    (reg, some ⟨.invalidArgument, "bank name and address are both required"⟩)
  else
    match reg.register name address dial with
    | (reg, some e) => (reg, some ⟨.internal, "register bank " ++ name ++ ": " ++ e⟩)
    | (reg, none) => (reg, none)

/-- An address that is registered without an error is the one of the bank. -/
theorem lookup_bankRegister (h : (reg.bankRegister name address dial).2 = none) :
    (reg.bankRegister name address dial).1.lookup name = some address := by
  unfold bankRegister register at h ⊢
  split_ifs at h ⊢ with hempty hsame
  · exact hsame
  · cases dial with
    | some e => simp at h
    | none => exact Finmap.lookup_insert _

theorem bankRegister_of_err (h : (reg.bankRegister name address dial).2 ≠ none) :
    (reg.bankRegister name address dial).1 = reg := by
  unfold bankRegister register at h ⊢
  split_ifs at h ⊢ with hempty hsame
  · rfl
  · rfl
  · cases dial with
    | some e => rfl
    | none => simp at h

end Registry

namespace Routing

variable {n : ℕ}

/-- Where a call of `announceWithRetry` is. -/
inductive Stage
  /-- It waits for the end of an attempt, for which this answer has come. -/
  | calling (answer : Option (Option Status))
  /-- It sleeps after an attempt that has failed. -/
  | pausing
  | returned
  deriving DecidableEq

/-- A call of `announceWithRetry`. -/
structure Announcement (n : ℕ) where
  replica : Fin n
  /-- The number of the attempt. -/
  attempt : ℕ
  stage : Stage
  /-- The gateway has executed a request of it without an error. -/
  delivered : Bool
  deriving DecidableEq

/-- A request `BankRegister` on its way to the gateway. -/
structure Flight (n : ℕ) where
  announcement : ℕ
  attempt : ℕ
  replica : Fin n
  deriving DecidableEq

/-- The loop of `watchLeadership`. -/
structure Watcher where
  wasLeader : Bool
  /-- The call of `announceWithRetry` in which it is; otherwise it sleeps. -/
  announcing : Option ℕ
  deriving DecidableEq

/-- The replicas of a bank, and the gateway. -/
structure Group (n : ℕ) where
  /-- `Node.IsLeader`. -/
  leads : Fin n → Bool
  watchers : Fin n → Watcher
  /-- The loop has looked since the last time that a role changed. -/
  polled : Fin n → Bool
  announcements : List (Announcement n)
  flights : List (Flight n)
  registry : Registry

/-- How often `announceWithRetry` tries. -/
def attempts : ℕ := 5

namespace Group

/-- Before the first election. -/
def init (registry : Registry) : Group n :=
  ⟨fun _ => false, fun _ => ⟨false, none⟩, fun _ => false, [], [], registry⟩

variable (g : Group n)

def setRole (r : Fin n) (leads : Bool) : Group n :=
  { g with leads := Function.update g.leads r leads, polled := fun _ => false }

/-- The loop looks at the role of its replica. -/
def poll (r : Fin n) : Group n :=
  let polled := Function.update g.polled r true
  if g.leads r && !(g.watchers r).wasLeader then
    let k := g.announcements.length
    { g with
      polled := polled
      watchers := Function.update g.watchers r ⟨(g.watchers r).wasLeader, some k⟩
      announcements := g.announcements ++ [⟨r, 1, .calling none, false⟩]
      flights := g.flights ++ [⟨k, 1, r⟩] }
  else
    { g with
      polled := polled
      watchers := Function.update g.watchers r ⟨g.leads r, none⟩ }

def setAnnouncement (k : ℕ) (a : Announcement n) : Group n :=
  { g with announcements := g.announcements.set k a }

/-- `announceWithRetry` returns, and the loop goes on. -/
def finish (k : ℕ) (a : Announcement n) : Group n :=
  { g.setAnnouncement k { a with stage := .returned } with
    watchers := Function.update g.watchers a.replica ⟨true, none⟩ }

/-- The next attempt. -/
def retry (k : ℕ) (a : Announcement n) : Group n :=
  { g.setAnnouncement k { a with attempt := a.attempt + 1, stage := .calling none } with
    flights := g.flights ++ [⟨k, a.attempt + 1, a.replica⟩] }

/-- The answer to an attempt reaches the call, if it still waits for it. -/
def receive (attempt : ℕ) (err : Option Status) (a : Announcement n) : Announcement n :=
  { a with
    stage :=
      match a.stage with
      | .calling answer => .calling (if a.attempt = attempt then some err else answer)
      | stage => stage
    delivered := a.delivered || err.isNone }

end Group

/-- The address that a replica announces. -/
def address (port : Fin n → ℕ) (r : Fin n) : String := "localhost:" ++ toString (port r)

inductive Action (n : ℕ)
  /-- The replica becomes leader. -/
  | elect (r : Fin n)
  /-- The replica stops leading. -/
  | depose (r : Fin n)
  | poll (r : Fin n)
  /-- The gateway executes the request in flight at that position. -/
  | deliver (i : ℕ) (dial : Option String)
  /-- The request in flight at that position is lost. -/
  | lose (i : ℕ)
  /-- The call of `announceWithRetry` reads the answer to its attempt. -/
  | answer (k : ℕ)
  /-- The attempt ends with an error. -/
  | fail (k : ℕ)
  /-- The pause after an attempt is over. -/
  | wake (k : ℕ)
  deriving DecidableEq

namespace Group

variable (bankName : String) (port : Fin n → ℕ)

/-- The gateway executes a request. -/
def deliver (g : Group n) (f : Flight n) (dial : Option String) : Group n :=
  let (registry, err) := g.registry.bankRegister bankName (address port f.replica) dial
  { g with
    registry := registry
    announcements := g.announcements.modify f.announcement (receive f.attempt err) }

def step (g : Group n) : Action n → Option (Group n)
  | .elect r => if g.leads r then none else some (g.setRole r true)
  | .depose r => if g.leads r then some (g.setRole r false) else none
  | .poll r => if (g.watchers r).announcing = none then some (g.poll r) else none
  | .deliver i dial =>
    g.flights[i]?.map fun f =>
      deliver bankName port { g with flights := g.flights.eraseIdx i } f dial
  | .lose i => g.flights[i]?.map fun _ => { g with flights := g.flights.eraseIdx i }
  | .answer k =>
    match g.announcements[k]? with
    | none => none
    | some a =>
      match a.stage with
      | .calling (some none) => some (g.finish k a)
      | .calling (some (some _)) => some (g.setAnnouncement k { a with stage := .pausing })
      | .calling none | .pausing | .returned => none
  | .fail k =>
    match g.announcements[k]? with
    | none => none
    | some a =>
      match a.stage with
      | .calling _ => some (g.setAnnouncement k { a with stage := .pausing })
      | .pausing | .returned => none
  | .wake k =>
    match g.announcements[k]? with
    | none => none
    | some a =>
      match a.stage with
      | .pausing => some (if a.attempt < attempts then g.retry k a else g.finish k a)
      | .calling _ | .returned => none

/-- The replica of each announcement, and whether the gateway has got it. -/
def reports (g : Group n) : List (Fin n × Bool) :=
  g.announcements.map fun a => (a.replica, a.delivered)

/-- The gateway has the address of the replica, or is still to get it: the loop of the replica has
seen that it does not lead, or one of its announcements has not come through. -/
def covered (g : Group n) (r : Fin n) : Bool :=
  g.watchers r = ⟨false, none⟩ || g.registry.lookup bankName = some (address port r) ||
    (r, false) ∈ g.reports

/-- A replica becomes leader when the gateway has its address or is still to get it, and the gateway
executes no announcement while another replica leads. -/
def orderly (g : Group n) : Action n → Bool
  | .elect r => g.covered bankName port r
  | .deliver i _ => g.flights[i]?.all fun f => ∀ r, g.leads r = true → r = f.replica
  | _ => true

/-- Only one replica leads, all loops have looked since, and every announcement has come through. -/
structure Quiet (g : Group n) (leader : Fin n) : Prop where
  leads : ∀ r, g.leads r = true ↔ r = leader
  polled : ∀ r, g.polled r = true
  returned : ∀ a ∈ g.announcements, a.stage = .returned
  delivered : ∀ a ∈ g.announcements, a.delivered = true

instance (g : Group n) (leader : Fin n) : Decidable (g.Quiet leader) :=
  decidable_of_iff ((∀ r, g.leads r = true ↔ r = leader) ∧ (∀ r, g.polled r = true) ∧
      (∀ a ∈ g.announcements, a.stage = .returned) ∧ ∀ a ∈ g.announcements, a.delivered = true)
    ⟨fun h => ⟨h.1, h.2.1, h.2.2.1, h.2.2.2⟩, fun h => ⟨h.1, h.2, h.3, h.4⟩⟩

/-! ## What the loops and the announcements know of each other -/

/-- The loop of a replica is in its announcement that has not returned, requests in flight belong to
announcements of their replica, and a loop that has looked knows that its replica leads. -/
structure Linked (g : Group n) : Prop where
  running : ∀ k a, g.announcements[k]? = some a → a.stage ≠ .returned →
    (g.watchers a.replica).announcing = some k
  flight : ∀ f ∈ g.flights, ∃ delivered, g.reports[f.announcement]? = some (f.replica, delivered)
  polled : ∀ r, g.polled r = true → g.leads r = true →
    (g.watchers r).wasLeader = true ∨ (g.watchers r).announcing ≠ none

variable {bankName port} {g g' : Group n} {k : ℕ} {a a' : Announcement n} {f : Flight n} {r : Fin n}

theorem leads_poll (g : Group n) (r : Fin n) : (g.poll r).leads = g.leads := by
  unfold poll
  dsimp only
  split_ifs <;> rfl

theorem watchers_poll_of_ne (g : Group n) {r s : Fin n} (hs : s ≠ r) :
    (g.poll r).watchers s = g.watchers s ∧ (g.poll r).polled s = g.polled s := by
  unfold poll
  dsimp only
  split_ifs <;> exact ⟨Function.update_of_ne hs _ _, Function.update_of_ne hs _ _⟩

/-- A loop that looks while its replica leads knows it afterwards. -/
theorem watchers_poll_self (g : Group n) (hl : g.leads r = true) :
    ((g.poll r).watchers r).wasLeader = true ∨ ((g.poll r).watchers r).announcing ≠ none := by
  unfold poll
  dsimp only
  split_ifs
  · exact Or.inr (by simp)
  · exact Or.inl (by simpa using hl)

/-- A loop that looks begins an announcement, or none. -/
theorem announcements_poll (g : Group n) (r : Fin n) :
    (g.poll r).announcements = g.announcements ∧ (g.poll r).flights = g.flights ∨
      (g.poll r).announcements = g.announcements ++ [⟨r, 1, .calling none, false⟩] ∧
        (g.poll r).flights = g.flights ++ [⟨g.announcements.length, 1, r⟩] ∧
        ((g.poll r).watchers r).announcing = some g.announcements.length := by
  unfold poll
  dsimp only
  split_ifs
  · exact Or.inr ⟨rfl, rfl, by simp⟩
  · exact Or.inl ⟨rfl, rfl⟩

theorem reports_setAnnouncement (ha : g.announcements[k]? = some a)
    (h : (a'.replica, a'.delivered) = (a.replica, a.delivered)) :
    (g.setAnnouncement k a').reports = g.reports :=
  Table.map_set_eq ha h

theorem reports_finish (ha : g.announcements[k]? = some a) : (g.finish k a).reports = g.reports :=
  Table.map_set_eq ha rfl

theorem reports_retry (ha : g.announcements[k]? = some a) : (g.retry k a).reports = g.reports :=
  Table.map_set_eq ha rfl

theorem receive_replica (attempt : ℕ) (err : Option Status) (a : Announcement n) :
    (receive attempt err a).replica = a.replica := rfl

theorem receive_stage {attempt : ℕ} {err : Option Status}
    (h : (receive attempt err a).stage ≠ .returned) : a.stage ≠ .returned := by
  intro hstage
  exact h (by simp [receive, hstage])

/-- An announcement that has been replaced by one of the same replica. -/
theorem getElem?_setAnnouncement (ha : g.announcements[k]? = some a) (i : ℕ) :
    (g.setAnnouncement k a').announcements[i]? =
      if i = k then some a' else g.announcements[i]? := by
  obtain ⟨hk, -⟩ := List.getElem?_eq_some_iff.mp ha
  simp only [setAnnouncement, List.getElem?_set, hk, if_true, eq_comm]

namespace Linked

theorem init (registry : Registry) : Linked (n := n) (Group.init registry) where
  running _ _ h := by simp [Group.init] at h
  flight _ h := by simp [Group.init] at h
  polled _ h := by simp [Group.init] at h

theorem setRole (h : g.Linked) (r : Fin n) (leads : Bool) : (g.setRole r leads).Linked :=
  ⟨h.running, h.flight, fun _ hp => nomatch hp⟩

theorem poll (h : g.Linked) (hidle : (g.watchers r).announcing = none) : (g.poll r).Linked := by
  have hrunning : ∀ (k : ℕ) (a : Announcement n), g.announcements[k]? = some a →
      a.stage ≠ .returned → ((g.poll r).watchers a.replica).announcing = some k := by
    intro k a ha hstage
    have hk := h.running k a ha hstage
    have hne : a.replica ≠ r := by
      rintro rfl
      exact absurd (hk.symm.trans hidle) nofun
    rw [(watchers_poll_of_ne g hne).1, hk]
  refine ⟨fun k a ha hstage => ?_, fun f hf => ?_, fun s hp hl => ?_⟩
  · rcases announcements_poll g r with ⟨hsame, -⟩ | ⟨hnew, -, hself⟩
    · exact hrunning k a (hsame ▸ ha) hstage
    · rw [hnew] at ha
      rcases Table.getElem?_concat_eq_some.mp ha with ha | ⟨rfl, rfl⟩
      · exact hrunning k a ha hstage
      · exact hself
  · rcases announcements_poll g r with ⟨hsame, hflights⟩ | ⟨hnew, hflights, -⟩
    · rw [reports, hsame]
      exact h.flight f (hflights ▸ hf)
    · rw [reports, hnew, List.map_append]
      rw [hflights] at hf
      rcases List.mem_append.mp hf with hf | hf
      · obtain ⟨delivered, hd⟩ := h.flight f hf
        exact ⟨delivered, Table.getElem?_concat hd _⟩
      · obtain rfl := List.mem_singleton.mp hf
        exact ⟨false, by simp⟩
  · rw [leads_poll] at hl
    by_cases hs : s = r
    · subst hs
      exact watchers_poll_self g hl
    · rw [(watchers_poll_of_ne g hs).1]
      exact h.polled s ((watchers_poll_of_ne g hs).2 ▸ hp) hl

/-- An announcement that goes on without returning. -/
theorem setAnnouncement (h : g.Linked) (ha : g.announcements[k]? = some a)
    (hstage : a.stage ≠ .returned) (hsame : (a'.replica, a'.delivered) = (a.replica, a.delivered)) :
    (g.setAnnouncement k a').Linked := by
  refine ⟨fun i b hb hbstage => ?_, ?_, h.polled⟩
  · rw [getElem?_setAnnouncement ha] at hb
    split_ifs at hb with hi
    · obtain rfl := Option.some.inj hb
      rw [hi, (Prod.mk.inj hsame).1]
      exact h.running k a ha hstage
    · exact h.running i b hb hbstage
  · rw [reports_setAnnouncement ha hsame]
    exact h.flight

theorem finish (h : g.Linked) (ha : g.announcements[k]? = some a) (hstage : a.stage ≠ .returned) :
    (g.finish k a).Linked := by
  refine ⟨fun i b hb hbstage => ?_, ?_, fun s hp hl => ?_⟩
  · change (g.setAnnouncement k { a with stage := .returned }).announcements[i]? = some b at hb
    rw [getElem?_setAnnouncement ha] at hb
    split_ifs at hb with hi
    · obtain rfl := Option.some.inj hb
      exact absurd rfl hbstage
    · -- the loop of the replica is in one announcement only
      have hne : b.replica ≠ a.replica := by
        intro heq
        have hk := h.running k a ha hstage
        rw [← heq, h.running i b hb hbstage] at hk
        exact hi (Option.some.inj hk)
      change (Function.update g.watchers a.replica _ b.replica).announcing = some i
      rw [Function.update_of_ne hne]
      exact h.running i b hb hbstage
  · rw [reports_finish ha]
    exact h.flight
  · change (Function.update g.watchers a.replica _ s).wasLeader = true ∨
      (Function.update g.watchers a.replica _ s).announcing ≠ none
    by_cases hs : s = a.replica
    · rw [hs, Function.update_self]
      exact Or.inl rfl
    · rw [Function.update_of_ne hs]
      exact h.polled s hp hl

theorem retry (h : g.Linked) (ha : g.announcements[k]? = some a) (hstage : a.stage ≠ .returned) :
    (g.retry k a).Linked := by
  have hset : (g.setAnnouncement k
      { a with attempt := a.attempt + 1, stage := .calling none }).Linked :=
    h.setAnnouncement ha hstage rfl
  refine ⟨hset.running, fun f hf => ?_, hset.polled⟩
  rcases List.mem_append.mp hf with hf | hf
  · exact hset.flight f hf
  · obtain rfl := List.mem_singleton.mp hf
    refine ⟨a.delivered, ?_⟩
    rw [reports_retry ha, reports, List.getElem?_map, ha]
    rfl

theorem dropFlight (h : g.Linked) (i : ℕ) :
    Linked { g with flights := g.flights.eraseIdx i } :=
  ⟨h.running, fun f hf => h.flight f (List.mem_of_mem_eraseIdx hf), h.polled⟩

theorem deliver (h : g.Linked) (f : Flight n) (dial : Option String) :
    (g.deliver bankName port f dial).Linked := by
  unfold Group.deliver
  dsimp only
  refine ⟨fun i b hb hbstage => ?_, fun f' hf' => ?_, h.polled⟩
  · rw [List.getElem?_modify, Option.map_eq_map, Option.map_eq_some_iff] at hb
    obtain ⟨b', hb', rfl⟩ := hb
    split_ifs at hbstage ⊢ with hi
    · exact h.running i b' hb' (receive_stage hbstage)
    · exact h.running i b' hb' hbstage
  · obtain ⟨delivered, hd⟩ := h.flight f' hf'
    rw [reports, List.getElem?_map, Option.map_eq_some_iff] at hd
    obtain ⟨b, hb, hpair⟩ := hd
    obtain ⟨hreplica, -⟩ := Prod.mk.inj hpair
    simp only [reports, List.getElem?_map, List.getElem?_modify, hb, Option.map_eq_map,
      Option.map_some]
    split_ifs
    · exact ⟨_, by rw [receive_replica, hreplica]⟩
    · exact ⟨_, by rw [hreplica]⟩

end Linked

/-! ## The address at the gateway -/

theorem covered_iff : g.covered bankName port r = true ↔ g.watchers r = ⟨false, none⟩ ∨
    g.registry.lookup bankName = some (address port r) ∨ (r, false) ∈ g.reports := by
  simp [covered, or_assoc]

/-- A replica stays covered while its loop does nothing and the gateway keeps the address. -/
theorem covered_mono (h : g.covered bankName port r = true) (hw : g'.watchers r = g.watchers r)
    (hreg : g'.registry = g.registry) (hrep : g.reports ⊆ g'.reports) :
    g'.covered bankName port r = true := by
  rw [covered_iff] at h ⊢
  rw [hw, hreg]
  exact h.imp_right (Or.imp_right fun hmem => hrep hmem)

theorem registry_poll (g : Group n) (r : Fin n) : (g.poll r).registry = g.registry := by
  unfold poll
  dsimp only
  split_ifs <;> rfl

theorem reports_poll (g : Group n) (r : Fin n) : g.reports ⊆ (g.poll r).reports := by
  rcases announcements_poll g r with ⟨hsame, -⟩ | ⟨hnew, -⟩
  · rw [reports, reports, hsame]
    exact List.Subset.refl _
  · rw [reports, reports, hnew, List.map_append]
    exact List.subset_append_left _ _

/-- The loop of a leader that has not seen it yet announces it. -/
theorem covered_poll (hl : g.leads r = true) (h : g.covered bankName port r = true) :
    (g.poll r).covered bankName port r = true := by
  rcases covered_iff.mp h with hw | hreg | hrep
  · rw [covered_iff]
    refine Or.inr (Or.inr ?_)
    simp [poll, reports, hl, hw]
  · rw [covered_iff, registry_poll]
    exact Or.inr (Or.inl hreg)
  · rw [covered_iff]
    exact Or.inr (Or.inr (reports_poll g r hrep))

/-- Every leader is covered. -/
structure Tracked (bankName : String) (port : Fin n → ℕ) (g : Group n) : Prop extends Linked g where
  covered : ∀ r, g.leads r = true → g.covered bankName port r = true

namespace Tracked

theorem init (registry : Registry) : Tracked bankName port (n := n) (Group.init registry) :=
  ⟨.init registry, fun _ hl => nomatch hl⟩

theorem elect (h : Tracked bankName port g) (hr : g.covered bankName port r = true) :
    Tracked bankName port (g.setRole r true) := by
  refine ⟨h.toLinked.setRole r true, fun s hl => ?_⟩
  by_cases hs : s = r
  · exact hs ▸ hr
  · exact h.covered s (by simpa [setRole, hs] using hl)

theorem depose (h : Tracked bankName port g) : Tracked bankName port (g.setRole r false) := by
  refine ⟨h.toLinked.setRole r false, fun s hl => h.covered s ?_⟩
  by_cases hs : s = r
  · subst hs
    simp [setRole] at hl
  · simpa [setRole, hs] using hl

theorem poll (h : Tracked bankName port g) (hidle : (g.watchers r).announcing = none) :
    Tracked bankName port (g.poll r) := by
  refine ⟨h.toLinked.poll hidle, fun s hl => ?_⟩
  rw [leads_poll] at hl
  by_cases hs : s = r
  · subst hs
    exact covered_poll hl (h.covered s hl)
  · exact covered_mono (h.covered s hl) (watchers_poll_of_ne g hs).1 (registry_poll g r)
      (reports_poll g r)

theorem setAnnouncement (h : Tracked bankName port g) (ha : g.announcements[k]? = some a)
    (hstage : a.stage ≠ .returned) (hsame : (a'.replica, a'.delivered) = (a.replica, a.delivered)) :
    Tracked bankName port (g.setAnnouncement k a') :=
  ⟨h.toLinked.setAnnouncement ha hstage hsame, fun s hl =>
    covered_mono (h.covered s hl) rfl rfl (reports_setAnnouncement ha hsame ▸ List.Subset.refl _)⟩

theorem retry (h : Tracked bankName port g) (ha : g.announcements[k]? = some a)
    (hstage : a.stage ≠ .returned) : Tracked bankName port (g.retry k a) :=
  ⟨h.toLinked.retry ha hstage, fun s hl =>
    covered_mono (h.covered s hl) rfl rfl (reports_retry ha ▸ List.Subset.refl _)⟩

/-- A loop that comes back from its announcement was not waiting to look. -/
theorem finish (h : Tracked bankName port g) (ha : g.announcements[k]? = some a)
    (hstage : a.stage ≠ .returned) : Tracked bankName port (g.finish k a) := by
  have hreports : g.reports ⊆ (g.finish k a).reports := reports_finish ha ▸ List.Subset.refl _
  refine ⟨h.toLinked.finish ha hstage, fun s hl => ?_⟩
  by_cases hs : s = a.replica
  · have hbusy := h.running k a ha hstage
    rcases covered_iff.mp (h.covered s hl) with hw | hreg | hrep
    · rw [← hs, hw] at hbusy
      cases hbusy
    · exact covered_iff.mpr (Or.inr (Or.inl hreg))
    · exact covered_iff.mpr (Or.inr (Or.inr (hreports hrep)))
  · refine covered_mono (h.covered s hl) ?_ rfl hreports
    exact Function.update_of_ne hs _ _

/-- The gateway executes an announcement while no other replica leads. -/
theorem deliver (h : Tracked bankName port g) (honly : ∀ r, g.leads r = true → r = f.replica)
    (dial : Option String) : Tracked bankName port (g.deliver bankName port f dial) := by
  refine ⟨h.toLinked.deliver f dial, fun s hl => ?_⟩
  obtain rfl : s = f.replica := honly s hl
  cases herr : (g.registry.bankRegister bankName (address port f.replica) dial).2 with
  | none =>
    rw [covered_iff]
    exact Or.inr (Or.inl (Registry.lookup_bankRegister herr))
  | some e =>
    refine covered_mono (h.covered _ hl) rfl (Registry.bankRegister_of_err (by simp [herr])) ?_
    -- a request that was refused is not a delivery
    have hsame : (g.deliver bankName port f dial).reports = g.reports := by
      unfold Group.deliver reports
      dsimp only
      rw [herr]
      exact Table.map_modify_eq (fun b => by simp [receive]) _ _
    exact hsame ▸ List.Subset.refl _

theorem dropFlight (h : Tracked bankName port g) (i : ℕ) :
    Tracked bankName port { g with flights := g.flights.eraseIdx i } :=
  ⟨h.toLinked.dropFlight i, h.covered⟩

theorem step {act : Action n} (h : Tracked bankName port g)
    (hok : g.orderly bankName port act = true) (hs : g.step bankName port act = some g') :
    Tracked bankName port g' := by
  unfold Group.step at hs
  cases act with
  | elect r =>
    dsimp only at hs
    split_ifs at hs
    obtain rfl := Option.some.inj hs
    exact h.elect hok
  | depose r =>
    dsimp only at hs
    split_ifs at hs
    obtain rfl := Option.some.inj hs
    exact h.depose
  | poll r =>
    dsimp only at hs
    split_ifs at hs with hidle
    obtain rfl := Option.some.inj hs
    exact h.poll hidle
  | deliver i dial =>
    obtain ⟨f, hf, rfl⟩ := Option.map_eq_some_iff.mp hs
    have honly : ∀ r, g.leads r = true → r = f.replica := by simpa [orderly, hf] using hok
    exact (h.dropFlight i).deliver honly dial
  | lose i =>
    obtain ⟨f, hf, rfl⟩ := Option.map_eq_some_iff.mp hs
    exact h.dropFlight i
  | answer k =>
    dsimp only at hs
    split at hs
    · cases hs
    · rename_i a ha
      split at hs
      · rename_i hstage
        obtain rfl := Option.some.inj hs
        exact h.finish ha (by simp [hstage])
      · rename_i hstage
        obtain rfl := Option.some.inj hs
        exact h.setAnnouncement ha (by simp [hstage]) rfl
      all_goals cases hs
  | fail k =>
    dsimp only at hs
    split at hs
    · cases hs
    · rename_i a ha
      split at hs
      · rename_i hstage
        obtain rfl := Option.some.inj hs
        exact h.setAnnouncement ha (by simp [hstage]) rfl
      all_goals cases hs
  | wake k =>
    dsimp only at hs
    split at hs
    · cases hs
    · rename_i a ha
      split at hs
      · rename_i hstage
        obtain rfl := Option.some.inj hs
        split_ifs
        · exact h.retry ha (by simp [hstage])
        · exact h.finish ha (by simp [hstage])
      all_goals cases hs

/-- When all is quiet, the gateway has the address of the only leader. -/
theorem client_eq (h : Tracked bankName port g) {leader : Fin n} (hq : g.Quiet leader) :
    g.registry.client bankName = .ok (address port leader) := by
  have hl : g.leads leader = true := (hq.leads leader).mpr rfl
  rcases covered_iff.mp (h.covered leader hl) with hw | hreg | hrep
  · rcases h.polled leader (hq.polled leader) hl with hwas | hannouncing
    · simp [hw] at hwas
    · simp [hw] at hannouncing
  · rw [Registry.client, hreg]
  · obtain ⟨a, ha, hpair⟩ := List.mem_map.mp hrep
    have hdelivered := hq.delivered a ha
    rw [(Prod.mk.inj hpair).2] at hdelivered
    cases hdelivered

end Tracked

/-- **The gateway ends up routing to the leader**, in every run whose steps are orderly. -/
theorem routed {registry : Registry} {as : List (Action n)} {leader : Fin n}
    (h : Run (step bankName port) (orderly bankName port) (init registry) as g)
    (hq : g.Quiet leader) : g.registry.client bankName = .ok (address port leader) :=
  (h.invariant (fun _ _ _ hI hok hs => hI.step hok hs) (Tracked.init registry)).client_eq hq

/-- The ports of two replicas. -/
def ports (r : Fin 2) : ℕ := 50110 + r

/-- The number of replicas in the examples. -/
local instance : NeZero 2 := ⟨by decide⟩

/-- An announcement is executed at once. -/
def announced (k : ℕ) : List (Action 2) := [.deliver 0 none, .answer k]

/-- The second replica takes over from the first, which needed two attempts. -/
def failover : List (Action 2) :=
  [.elect 0, .poll 0, .lose 0, .fail 0, .wake 0] ++ announced 0 ++
    [.depose 0, .poll 0, .elect 1, .poll 1] ++ announced 1 ++ [.poll 0]

theorem routed_failover :
    ∃ g, Run (step "ICICI" ports) (orderly "ICICI" ports) (init ∅) failover g ∧ g.Quiet 1 ∧
      g.registry.client "ICICI" = .ok (address ports 1) := by
  obtain ⟨g, hrun, hquiet⟩ := Run.exists_of_exec_map (step "ICICI" ports) (orderly "ICICI" ports)
    (init ∅) failover (fun g => decide (g.Quiet 1)) true (by decide +kernel)
  have hq := of_decide_eq_true hquiet
  exact ⟨g, hrun, hq, routed hrun hq⟩

/-- The first attempt of the first replica fails. While it sleeps, the second one is elected and
announces itself, and then the second attempt gets through. -/
def lateRetry : List (Action 2) :=
  [.elect 0, .poll 0, .lose 0, .fail 0, .depose 0, .elect 1, .poll 1] ++ announced 1 ++
    .wake 0 :: announced 0 ++ [.poll 0, .poll 1]

/-- The second replica leads between two looks of the first one's loop. -/
def regained : List (Action 2) :=
  [.elect 0, .poll 0] ++ announced 0 ++ [.depose 0, .elect 1, .poll 1] ++ announced 1 ++
    [.depose 1, .elect 0, .poll 0, .poll 1]

/-- Both times all is quiet, and the gateway has the address of a replica that does not lead. -/
theorem misrouted :
    (∃ g, Run (step "ICICI" ports) always (init ∅) lateRetry g ∧ g.Quiet 1 ∧
      g.registry.lookup "ICICI" = some (address ports 0)) ∧
    (∃ g, Run (step "ICICI" ports) always (init ∅) regained g ∧ g.Quiet 0 ∧
      g.registry.lookup "ICICI" = some (address ports 1)) ∧ address ports 0 ≠ address ports 1 := by
  have hend : ∀ (acts : List (Action 2)) (leader other : Fin 2),
      (exec (step "ICICI" ports) always (init ∅) acts).map
        (fun g => (decide (g.Quiet leader), g.registry.lookup "ICICI")) =
          some (true, some (address ports other)) →
      ∃ g, Run (step "ICICI" ports) always (init ∅) acts g ∧ g.Quiet leader ∧
        g.registry.lookup "ICICI" = some (address ports other) := by
    intro acts leader other h
    obtain ⟨g, hrun, hg⟩ := Run.exists_of_exec_map _ _ _ _ _ _ h
    obtain ⟨hquiet, hlookup⟩ := Prod.mk.inj hg
    exact ⟨g, hrun, of_decide_eq_true hquiet, hlookup⟩
  exact ⟨hend _ _ _ (by decide +kernel), hend _ _ _ (by decide +kernel), by decide +kernel⟩

end Group

end Routing

end PaxosPayments.Gateway
