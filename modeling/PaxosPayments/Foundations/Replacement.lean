import Mathlib.Logic.Function.Basic
import PaxosPayments.Foundations.Runs

/-!
# Processes that replace one file

Several processes work on one file. A call reads the whole file and computes from it a result and,
if something is to be changed, a new file, which it puts in the place of the old one in a second
step. A process makes one call at a time; nothing keeps two processes apart.

`compute file c` is what a call `c` makes of the file it has read. A replacement is `undisturbed`
when the file is still the one that its call has read. In a run whose replacements all are, the
processes might as well have taken turns: the file is what the calls that have returned make of the
first file one after another, in the order in which they returned, and each has returned what it
returns there (`serial_of_run`).
-/

namespace PaxosPayments

variable {P F C R : Type*}

/-- A call that is about to replace the file. -/
structure Pending (F C R : Type*) where
  read : F
  call : C
  next : F
  result : R

/-- A pending call has computed its new file from what it has read, and it began under `Q`. -/
def Pending.Sound (compute : F → C → Option F × R) (Q : C → Prop) (q : Pending F C R) : Prop :=
  compute q.read q.call = (some q.next, q.result) ∧ Q q.call

/-- The file, the call that each process is in, and the calls that have returned. -/
structure Shared (P F C R : Type*) where
  file : F
  pending : P → Option (Pending F C R)
  returned : List (C × R)

namespace Shared

def start (file : F) : Shared P F C R := ⟨file, fun _ => none, []⟩

inductive Action (P C : Type*)
  /-- A process begins a call and reads the file. A call that has nothing to replace returns. -/
  | call (p : P) (c : C)
  /-- The process replaces the file, and its call returns. -/
  | replace (p : P)
  /-- The new file could not be written. -/
  | fail (p : P)

variable [DecidableEq P] (compute : F → C → Option F × R)

def step (s : Shared P F C R) : Action P C → Option (Shared P F C R)
  | .call p c =>
    match s.pending p with
    | some _ => none
    | none =>
      match compute s.file c with
      | (none, r) => some { s with returned := s.returned ++ [(c, r)] }
      | (some next, r) =>
        some { s with pending := Function.update s.pending p (some ⟨s.file, c, next, r⟩) }
  | .replace p =>
    match s.pending p with
    | none => none
    | some q =>
      some ⟨q.next, Function.update s.pending p none, s.returned ++ [(q.call, q.result)]⟩
  | .fail p =>
    match s.pending p with
    | none => none
    | some _ => some { s with pending := Function.update s.pending p none }

/-- A replacement replaces the file that its call has read. -/
def undisturbed [DecidableEq F] (s : Shared P F C R) : Action P C → Bool
  | .replace p => (s.pending p).all fun q => q.read = s.file
  | .call _ _ | .fail _ => true

/-- `Serial compute file₀ calls file`: the calls lead from `file₀` to `file` one after another, with
these results. -/
inductive Serial (file₀ : F) : List (C × R) → F → Prop
  | nil : Serial file₀ [] file₀
  | snoc {calls : List (C × R)} {file : F} (c : C) (h : Serial file₀ calls file) :
      Serial file₀ (calls ++ [(c, (compute file c).2)]) ((compute file c).1.getD file)

variable {compute}

/-- The calls that have returned are serial, and those under way are sound; `Q` holds of all. -/
structure Ordered (compute : F → C → Option F × R) (Q : C → Prop) (file₀ : F)
    (s : Shared P F C R) : Prop where
  serial : Serial compute file₀ s.returned s.file
  returned : ∀ x ∈ s.returned, Q x.1
  pending : ∀ p q, s.pending p = some q → q.Sound compute Q

namespace Ordered

variable {Q : C → Prop} {file₀ : F} {s s' : Shared P F C R}

omit [DecidableEq P] in
theorem start (file₀ : F) : Ordered compute Q file₀ (start file₀ : Shared P F C R) where
  serial := .nil
  returned x hx := by cases hx
  pending p q hq := by cases hq

omit [DecidableEq P] in
/-- One more call has returned. -/
theorem returned_snoc (h : Ordered compute Q file₀ s) {c : C} (hc : Q c) (r : R) :
    ∀ x ∈ s.returned ++ [(c, r)], Q x.1 := by
  intro x hx
  rcases List.mem_append.mp hx with hx | hx
  · exact h.returned x hx
  · obtain rfl := List.mem_singleton.mp hx
    exact hc

/-- A process goes on to another call, or to none. -/
theorem pending_update (h : Ordered compute Q file₀ s) (p : P) {x : Option (Pending F C R)}
    (hx : ∀ q, x = some q → q.Sound compute Q) :
    ∀ p' q, Function.update s.pending p x p' = some q → q.Sound compute Q := by
  intro p' q hq
  by_cases hp : p' = p
  · subst hp
    rw [Function.update_self] at hq
    exact hx q hq
  · rw [Function.update_of_ne hp] at hq
    exact h.pending p' q hq

theorem step [DecidableEq F] (h : Ordered compute Q file₀ s) {a : Action P C}
    (hundisturbed : s.undisturbed a = true) (hcall : ∀ p c, a = .call p c → Q c)
    (hstep : s.step compute a = some s') : Ordered compute Q file₀ s' := by
  cases a with
  | call p c =>
    have hc : Q c := hcall p c rfl
    simp only [Shared.step] at hstep
    split at hstep
    · cases hstep
    · split at hstep
      · rename_i r heq
        obtain rfl := Option.some.inj hstep
        have hnext := h.serial.snoc c
        rw [heq] at hnext
        exact ⟨hnext, h.returned_snoc hc r, h.pending⟩
      · rename_i next r heq
        obtain rfl := Option.some.inj hstep
        refine ⟨h.serial, h.returned, h.pending_update p fun q hq => ?_⟩
        obtain rfl := Option.some.inj hq
        exact ⟨heq, hc⟩
  | replace p =>
    simp only [Shared.step] at hstep
    split at hstep
    · cases hstep
    · rename_i q hq
      obtain rfl := Option.some.inj hstep
      obtain ⟨hcompute, hQ⟩ := h.pending p q hq
      have hread : q.read = s.file := by simpa [undisturbed, hq] using hundisturbed
      have hnext := h.serial.snoc q.call
      rw [← hread, hcompute] at hnext
      exact ⟨hnext, h.returned_snoc hQ q.result, h.pending_update p fun q hq => by cases hq⟩
  | fail p =>
    simp only [Shared.step] at hstep
    split at hstep
    · cases hstep
    · obtain rfl := Option.some.inj hstep
      exact ⟨h.serial, h.returned, h.pending_update p fun q hq => by cases hq⟩

end Ordered

/-- **Undisturbed replacements are serial.** What holds of every call that begins holds of every
call that has returned. -/
theorem serial_of_run [DecidableEq F] {ok : Shared P F C R → Action P C → Bool} {Q : C → Prop}
    (hok : ∀ s a, ok s a = true → s.undisturbed a = true)
    (hcall : ∀ s p c, ok s (.call p c) = true → Q c) {file₀ : F} {as : List (Action P C)}
    {s : Shared P F C R} (h : Run (step compute) ok (start file₀) as s) :
    Serial compute file₀ s.returned s.file ∧ ∀ x ∈ s.returned, Q x.1 := by
  have hI : Ordered compute Q file₀ s := by
    refine h.invariant (I := Ordered compute Q file₀) ?_ (.start file₀)
    intro s a s' hI ha hstep
    exact hI.step (hok s a ha) (fun p c hc => hcall s p c (hc ▸ ha)) hstep
  exact ⟨hI.serial, hI.returned⟩

end Shared

end PaxosPayments
