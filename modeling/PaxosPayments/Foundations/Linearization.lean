import Mathlib.Data.List.Basic
import Mathlib.Data.List.Nodup
import Mathlib.Logic.Function.Basic
import Mathlib.Tactic.Common

/-!
# Linearizable histories

An object is specified by a machine that takes one command at a time, `apply : σ → α → σ × ρ`. A
history is a list of operations, each called at some time, and each with the time and the result of
its return if it has returned. An operation that has not returned, or that has returned without a
result, may have taken effect or not, and may still do so.

* `Linearizes apply start ops order`: `order` is an order of operations of the history, among them
  all that have returned, in which every result is the one that the machine gives, and which does
  not put an operation behind one that was called after its return.
* `Object`: the object in one place, where an operation takes effect in one step (`execute`), some
  time between its call and its return.
* `Explains`: the order in which operations have taken effect linearizes the history. This is so
  from the beginning on (`Explains.init`) and is kept when an operation is called (`call`), takes
  effect (`execute`) and returns (`ret`).
-/

namespace PaxosPayments.Linear

variable {σ α ρ : Type*}

/-- The state after some commands. -/
def run (apply : σ → α → σ × ρ) (start : σ) (cs : List α) : σ :=
  cs.foldl (fun s c => (apply s c).1) start

theorem run_concat (apply : σ → α → σ × ρ) (start : σ) (cs : List α) (c : α) :
    run apply start (cs ++ [c]) = (apply (run apply start cs) c).1 := by
  rw [run, List.foldl_append]
  rfl

/-- An operation of a history. -/
structure Operation (α ρ : Type*) where
  command : α
  /-- When it was called. -/
  called : ℕ
  /-- When it returned, and with which result. -/
  returned : Option (ℕ × ρ)
  deriving DecidableEq

/-- `a` had returned before `b` was called. -/
def Operation.Precedes (a b : Operation α ρ) : Prop :=
  ∃ t r, a.returned = some (t, r) ∧ t < b.called

/-- The commands of operations that are given by their positions. -/
def commands (ops : List (Operation α ρ)) (order : List ℕ) : List α :=
  order.filterMap fun k => ops[k]?.map Operation.command

/-- The operations `order`, given by their positions, one after the other explain the history. -/
structure Linearizes (apply : σ → α → σ × ρ) (start : σ) (ops : List (Operation α ρ))
    (order : List ℕ) : Prop where
  nodup : order.Nodup
  /-- Every operation that has returned is in the order. -/
  complete : ∀ k op, ops[k]? = some op → op.returned ≠ none → k ∈ order
  /-- The results are those of the machine. -/
  result : ∀ earlier k later, order = earlier ++ k :: later → ∃ op, ops[k]? = some op ∧
    ∀ t r, op.returned = some (t, r) →
      r = (apply (run apply start (commands ops earlier)) op.command).2
  /-- Nothing is put behind an operation that was called after its return. -/
  realTime : order.Pairwise fun k l => ∀ op op', ops[k]? = some op → ops[l]? = some op' →
    ¬op'.Precedes op

def Linearizable (apply : σ → α → σ × ρ) (start : σ) (ops : List (Operation α ρ)) : Prop :=
  ∃ order, Linearizes apply start ops order

/-! ## The object in one place -/

/-- The state of an object, and the results of the operations that have taken effect, by their
positions. -/
structure Object (σ ρ : Type*) where
  state : σ
  answers : ℕ → Option ρ

namespace Object

def init (start : σ) : Object σ ρ := ⟨start, fun _ => none⟩

/-- Operation `k` takes effect. -/
def execute (apply : σ → α → σ × ρ) (o : Object σ ρ) (k : ℕ) (c : α) : Object σ ρ :=
  ⟨(apply o.state c).1, Function.update o.answers k (some (apply o.state c).2)⟩

variable {apply : σ → α → σ × ρ} {o : Object σ ρ} {c : α} {k l : ℕ}

theorem answers_execute_self : (o.execute apply k c).answers k = some (apply o.state c).2 :=
  Function.update_self ..

theorem answers_execute_of_ne (h : l ≠ k) : (o.execute apply k c).answers l = o.answers l :=
  Function.update_of_ne h ..

end Object

/-- The operations `order` have taken effect in this order, and left the object as `o`. -/
structure Explains (apply : σ → α → σ × ρ) (start : σ) (ops : List (Operation α ρ))
    (order : List ℕ) (o : Object σ ρ) : Prop where
  linearizes : Linearizes apply start ops order
  state : o.state = run apply start (commands ops order)
  answer : ∀ earlier k later, order = earlier ++ k :: later → ∀ op, ops[k]? = some op →
    o.answers k = some (apply (run apply start (commands ops earlier)) op.command).2
  unanswered : ∀ k, k ∉ order → o.answers k = none

namespace Explains

variable {apply : σ → α → σ × ρ} {start : σ} {ops ops' : List (Operation α ρ)} {order : List ℕ}
  {o : Object σ ρ} {op : Operation α ρ} {k : ℕ}

theorem init (apply : σ → α → σ × ρ) (s : σ) : Explains apply s [] [] (.init s) where
  linearizes := ⟨List.nodup_nil, by simp, by simp, .nil⟩
  state := rfl
  answer := by simp
  unanswered _ _ := rfl

theorem mem_order (h : Explains apply start ops order o) {r : ρ} (hr : o.answers k = some r) :
    k ∈ order := by
  by_contra hk
  rw [h.unanswered k hk] at hr
  cases hr

theorem exists_op (h : Explains apply start ops order o) (hk : k ∈ order) :
    ∃ op, ops[k]? = some op := by
  obtain ⟨earlier, later, heq⟩ := List.append_of_mem hk
  obtain ⟨op, hop, -⟩ := h.linearizes.result earlier k later heq
  exact ⟨op, hop⟩

/-- What is left to be shown when the history changes and no operation takes effect. -/
theorem of_ops (h : Explains apply start ops order o)
    (hkeep : ∀ (k : ℕ) op, ops[k]? = some op →
      ∃ op', ops'[k]? = some op' ∧ op'.command = op.command)
    (hret : ∀ (k : ℕ) op' t r, ops'[k]? = some op' → op'.returned = some (t, r) →
      o.answers k = some r)
    (hreal : order.Pairwise fun k l => ∀ op op', ops'[k]? = some op → ops'[l]? = some op' →
      ¬op'.Precedes op) :
    Explains apply start ops' order o := by
  have hcommands : ∀ part, part ⊆ order → commands ops' part = commands ops part := by
    intro part hpart
    unfold commands
    refine List.filterMap_congr fun k hk => ?_
    obtain ⟨op, hop⟩ := h.exists_op (hpart hk)
    obtain ⟨op', hop', hcommand⟩ := hkeep k op hop
    rw [hop, hop', Option.map_some, Option.map_some, hcommand]
  have hanswer : ∀ earlier k later, order = earlier ++ k :: later → ∀ op', ops'[k]? = some op' →
      o.answers k = some (apply (run apply start (commands ops' earlier)) op'.command).2 := by
    intro earlier k later heq op' hop'
    obtain ⟨op, hop⟩ : ∃ op, ops[k]? = some op := h.exists_op (by rw [heq]; simp)
    obtain ⟨op'', hop'', hcommand⟩ := hkeep k op hop
    obtain rfl := Option.some.inj (hop'.symm.trans hop'')
    rw [hcommand, hcommands earlier (by rw [heq]; exact List.subset_append_left ..)]
    exact h.answer earlier k later heq op hop
  refine ⟨⟨h.linearizes.nodup, fun k op' hop' hne => ?_, fun earlier k later heq => ?_, hreal⟩,
    ?_, hanswer, h.unanswered⟩
  · obtain ⟨⟨t, r⟩, hr⟩ := Option.ne_none_iff_exists'.mp hne
    exact h.mem_order (hret k op' t r hop' hr)
  · obtain ⟨op, hop⟩ : ∃ op, ops[k]? = some op := h.exists_op (by rw [heq]; simp)
    obtain ⟨op', hop', -⟩ := hkeep k op hop
    refine ⟨op', hop', fun t r hr => ?_⟩
    have hr := hret k op' t r hop' hr
    rw [hanswer earlier k later heq op' hop'] at hr
    exact (Option.some.inj hr).symm
  · rw [h.state, hcommands order (List.Subset.refl _)]

theorem result_of_returned (h : Explains apply start ops order o) {t : ℕ} {r : ρ}
    (hop : ops[k]? = some op) (hr : op.returned = some (t, r)) : o.answers k = some r := by
  have hk : k ∈ order := h.linearizes.complete k op hop (by simp [hr])
  obtain ⟨earlier, later, heq⟩ := List.append_of_mem hk
  obtain ⟨op', hop', hres⟩ := h.linearizes.result earlier k later heq
  obtain rfl := Option.some.inj (hop.symm.trans hop')
  rw [h.answer earlier k later heq op hop, hres t r hr]

/-- An operation is called. -/
theorem call (h : Explains apply start ops order o) (hnew : op.returned = none) :
    Explains apply start (ops ++ [op]) order o := by
  have hmem : ∀ k ∈ order, k < ops.length := fun k hk => by
    obtain ⟨op, hop⟩ := h.exists_op hk
    exact (List.getElem?_eq_some_iff.mp hop).1
  refine h.of_ops (fun k op' hop' => ⟨op', ?_, rfl⟩) (fun k op' t r hop' hr => ?_) ?_
  · rw [List.getElem?_append_left (List.getElem?_eq_some_iff.mp hop').1, hop']
  · by_cases hk : k < ops.length
    · rw [List.getElem?_append_left hk] at hop'
      exact h.result_of_returned hop' hr
    · rw [List.getElem?_append_right (by omega), List.getElem?_singleton] at hop'
      split_ifs at hop'
      obtain rfl := Option.some.inj hop'
      rw [hnew] at hr
      cases hr
  · refine h.linearizes.realTime.imp_of_mem fun {k l} hk hl hkl op op' hop hop' => ?_
    rw [List.getElem?_append_left (hmem k hk)] at hop
    rw [List.getElem?_append_left (hmem l hl)] at hop'
    exact hkl op op' hop hop'

/-- An operation that has not returned takes effect. -/
theorem execute (h : Explains apply start ops order o) (hop : ops[k]? = some op)
    (hopen : op.returned = none) (hnone : o.answers k = none) :
    Explains apply start ops (order ++ [k]) (o.execute apply k op.command) := by
  have hk : k ∉ order := fun hk => by
    obtain ⟨earlier, later, heq⟩ := List.append_of_mem hk
    rw [h.answer earlier k later heq op hop] at hnone
    cases hnone
  have hlast : ∀ earlier l later, order ++ [k] = earlier ++ l :: later →
      (∃ later', order = earlier ++ l :: later') ∨ l = k ∧ earlier = order := by
    intro earlier l later heq
    rcases List.eq_nil_or_concat later with rfl | ⟨later', x, rfl⟩
    · obtain ⟨horder, hsame⟩ := List.append_inj' heq rfl
      exact Or.inr ⟨(List.cons.inj hsame).1.symm, horder.symm⟩
    · have hassoc : order ++ [k] = (earlier ++ l :: later') ++ [x] := by simpa using heq
      exact Or.inl ⟨later', (List.append_inj' hassoc rfl).1⟩
  have hcommands : commands ops (order ++ [k]) = commands ops order ++ [op.command] := by
    simp [commands, hop]
  refine ⟨⟨List.nodup_append.mpr ⟨h.linearizes.nodup, List.nodup_singleton k, ?_⟩,
    fun l op' hop' hret => List.mem_append_left _ (h.linearizes.complete l op' hop' hret), ?_,
    List.pairwise_append.mpr ⟨h.linearizes.realTime, List.pairwise_singleton _ k, ?_⟩⟩, ?_, ?_, ?_⟩
  · intro l hl l' hl' hne
    rw [List.mem_singleton.mp hl'] at hne
    exact hk (hne ▸ hl)
  · intro earlier l later heq
    rcases hlast earlier l later heq with ⟨later', hold⟩ | ⟨rfl, -⟩
    · exact h.linearizes.result earlier l later' hold
    · refine ⟨op, hop, fun t r hr => ?_⟩
      rw [hopen] at hr
      cases hr
  · -- the operation has not returned, so it precedes none
    rintro l - l' hl' op₁ op₂ - hop₂ ⟨t, r, hr, -⟩
    rw [List.mem_singleton.mp hl'] at hop₂
    obtain rfl := Option.some.inj (hop.symm.trans hop₂)
    rw [hopen] at hr
    cases hr
  · rw [hcommands, run_concat, ← h.state]
    rfl
  · intro earlier l later heq op' hop'
    rcases hlast earlier l later heq with ⟨later', hold⟩ | ⟨rfl, rfl⟩
    · have hne : l ≠ k := by
        rintro rfl
        exact hk (by rw [hold]; simp)
      rw [Object.answers_execute_of_ne hne]
      exact h.answer earlier l later' hold op' hop'
    · obtain rfl := Option.some.inj (hop.symm.trans hop')
      rw [Object.answers_execute_self, h.state]
  · intro l hl
    rw [List.mem_append, List.mem_singleton] at hl
    push Not at hl
    rw [Object.answers_execute_of_ne hl.2]
    exact h.unanswered l hl.1

/-- An operation returns its result, now, after all calls so far. -/
theorem ret (h : Explains apply start ops order o) (hop : ops[k]? = some op) {t : ℕ} {r : ρ}
    (hr : o.answers k = some r) (hnow : ∀ op ∈ ops, op.called ≤ t) :
    Explains apply start (ops.set k { op with returned := some (t, r) }) order o := by
  have hget : ∀ l, (ops.set k { op with returned := some (t, r) })[l]? =
      if k = l then some { op with returned := some (t, r) } else ops[l]? := by
    intro l
    rw [List.getElem?_set, if_pos (List.getElem?_eq_some_iff.mp hop).1]
  refine h.of_ops (fun l op' hop' => ?_) (fun l op' t' r' hop' hr' => ?_) ?_
  · rw [hget]
    split_ifs with hkl
    · subst hkl
      obtain rfl := Option.some.inj (hop.symm.trans hop')
      exact ⟨_, rfl, rfl⟩
    · exact ⟨op', hop', rfl⟩
  · rw [hget] at hop'
    split_ifs at hop' with hkl
    · obtain rfl := Option.some.inj hop'
      cases hr'
      exact hkl ▸ hr
    · exact h.result_of_returned hop' hr'
  · refine h.linearizes.realTime.imp fun {l l'} hll op₁ op₂ hop₁ hop₂ => ?_
    have hcalled : ∃ op₀, ops[l]? = some op₀ ∧ op₀.called = op₁.called := by
      rw [hget] at hop₁
      split_ifs at hop₁ with hkl
      · obtain rfl := Option.some.inj hop₁
        exact ⟨op, hkl ▸ hop, rfl⟩
      · exact ⟨op₁, hop₁, rfl⟩
    obtain ⟨op₀, hop₀, hcalled⟩ := hcalled
    rintro ⟨t', r', hr', hlt⟩
    rw [← hcalled] at hlt
    rw [hget] at hop₂
    split_ifs at hop₂ with hkl
    · obtain rfl := Option.some.inj hop₂
      cases hr'
      exact absurd (hnow op₀ (List.mem_of_getElem? hop₀)) (Nat.not_le.mpr hlt)
    · exact hll op₀ op₂ hop₀ hop₂ ⟨t', r', hr', hlt⟩

end Explains

end PaxosPayments.Linear
