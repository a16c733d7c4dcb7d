import Mathlib.Tactic.Common

/-!
# Runs of a step function

A transition system is given by a partial step function `step : σ → α → Option σ`: an action that
is not enabled in a state has no successor there. A run is a list of actions, each of which is
enabled when it is taken and meets a side condition `ok` on the state it is taken in.

* `exec step ok s as` evaluates the actions `as` from `s`.
* `Run step ok s as s'` says that they lead from `s` to `s'` and all meet `ok`.
* `Run.invariant` and `Run.relates` are the two induction rules: a property kept by every step
  holds at the end of a run, and a reflexive and transitive relation that every step respects
  relates its two ends. `Run.origin` goes back from the end of a run to where a property arose.
* `Run.simulates`: a system whose steps are matched by runs of another has its runs matched.
-/

namespace PaxosPayments

variable {σ α : Type*}

/-- The state after the actions `as`, if each of them is enabled and meets `ok` when its turn
comes. -/
def exec (step : σ → α → Option σ) (ok : σ → α → Bool) : σ → List α → Option σ
  | s, [] => some s
  | s, a :: as =>
    if ok s a then
      match step s a with
      | some s' => exec step ok s' as
      | none => none
    else none

/-- `Run step ok s as s'`: the actions `as` lead from `s` to `s'`, and each of them meets `ok` in
the state in which it is taken. -/
inductive Run (step : σ → α → Option σ) (ok : σ → α → Bool) : σ → List α → σ → Prop
  | nil (s : σ) : Run step ok s [] s
  | cons {s s' s'' : σ} {a : α} {as : List α} (hok : ok s a = true) (hs : step s a = some s')
      (h : Run step ok s' as s'') : Run step ok s (a :: as) s''

/-- The side condition that every action meets: a run under it is any run at all. -/
def always (_ : σ) (_ : α) : Bool := true

namespace Run

variable {step : σ → α → Option σ} {ok ok' : σ → α → Bool} {s s' : σ} {as : List α}

theorem mono (himp : ∀ s a, ok s a = true → ok' s a = true) (h : Run step ok s as s') :
    Run step ok' s as s' := by
  induction h with
  | nil => exact .nil _
  | cons hok hs _ ih => exact .cons (himp _ _ hok) hs ih

theorem append {s'' : σ} {as' : List α} (h : Run step ok s as s') (h' : Run step ok s' as' s'') :
    Run step ok s (as ++ as') s'' := by
  induction h with
  | nil => exact h'
  | cons hok hs _ ih => exact .cons hok hs (ih h')

/-- **Invariant rule**: what every step taken under `ok` keeps holds at the end of a run. -/
theorem invariant {I : σ → Prop}
    (hstep : ∀ s a s', I s → ok s a = true → step s a = some s' → I s')
    (h : Run step ok s as s') (hI : I s) : I s' := by
  induction h with
  | nil => exact hI
  | cons hok hs _ ih => exact ih (hstep _ _ _ hI hok hs)

/-- **Relation rule**: a reflexive and transitive relation that every step respects in the states
of an invariant relates the two ends of a run. -/
theorem relates {I : σ → Prop} {R : σ → σ → Prop} (hrefl : ∀ s, R s s)
    (htrans : ∀ s t u, R s t → R t u → R s u)
    (hinv : ∀ s a s', I s → ok s a = true → step s a = some s' → I s')
    (hstep : ∀ s a s', I s → ok s a = true → step s a = some s' → R s s')
    (h : Run step ok s as s') (hI : I s) : R s s' := by
  induction h with
  | nil => exact hrefl _
  | cons hok hs _ ih => exact htrans _ _ _ (hstep _ _ _ hI hok hs) (ih (hinv _ _ _ hI hok hs))

/-- **Origin rule**: what holds at the end of a run and not at its start began to hold at some state
of the run. -/
theorem origin {P Q : σ → Prop}
    (hstep : ∀ s a s', ok s a = true → step s a = some s' → P s' → P s ∨ Q s')
    (h : Run step ok s as s') (hs : ¬P s) (hP : P s') :
    ∃ as₁ as₂ t, as = as₁ ++ as₂ ∧ Run step ok s as₁ t ∧ Q t := by
  induction h with
  | nil => exact absurd hP hs
  | @cons s t s'' a as hok hst _ ih =>
    by_cases ht : P t
    · exact ⟨[a], as, t, rfl, .cons hok hst (.nil t), (hstep s a t hok hst ht).resolve_left hs⟩
    · obtain ⟨as₁, as₂, u, rfl, hrun, hQ⟩ := ih ht hP
      exact ⟨a :: as₁, as₂, u, rfl, .cons hok hst hrun, hQ⟩

/-- **Simulation rule**: when every step is matched by a run of another system, so is a run. -/
theorem simulates {τ β : Type*} {step' : τ → β → Option τ} {ok' : τ → β → Bool}
    {R : σ → τ → Prop} (hstep : ∀ s a s' t, R s t → ok s a = true → step s a = some s' →
      ∃ bs t', Run step' ok' t bs t' ∧ R s' t')
    (h : Run step ok s as s') {t : τ} (hR : R s t) : ∃ bs t', Run step' ok' t bs t' ∧ R s' t' := by
  induction h generalizing t with
  | nil => exact ⟨[], t, .nil t, hR⟩
  | cons hok hs _ ih =>
    obtain ⟨bs, t', hrun, hR'⟩ := hstep _ _ _ t hR hok hs
    obtain ⟨bs', t'', hrun', hR''⟩ := ih hR'
    exact ⟨bs ++ bs', t'', hrun.append hrun', hR''⟩

/-- An evaluation is a run. -/
theorem of_exec (h : exec step ok s as = some s') : Run step ok s as s' := by
  induction as generalizing s with
  | nil =>
    obtain rfl := Option.some.inj h
    exact .nil _
  | cons a as ih =>
    unfold exec at h
    split_ifs at h with hok
    split at h
    · rename_i t ht
      exact .cons hok ht (ih h)
    · simp at h

/-- A value computed from the end of an evaluation is the value at the end of a run. -/
theorem exists_of_exec_map {β : Type*} (step : σ → α → Option σ) (ok : σ → α → Bool) (s : σ)
    (as : List α) (f : σ → β) (x : β) (h : (exec step ok s as).map f = some x) :
    ∃ s', Run step ok s as s' ∧ f s' = x := by
  obtain ⟨s', hs', rfl⟩ := Option.map_eq_some_iff.mp h
  exact ⟨s', of_exec hs', rfl⟩

end Run

end PaxosPayments
