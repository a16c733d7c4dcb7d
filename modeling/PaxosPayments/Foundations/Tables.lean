import Mathlib.Data.List.Perm.Basic
import Mathlib.Tactic.Common

/-!
# Lists as tables

A list that grows at its end and in which an entry is found by its position and replaced there: the
calls of a process, the requests in flight. What an entry keeps when it is replaced is a function of
it, and the list of these values is the same afterwards (`map_set_eq`, `map_modify_eq`). An entry
that is taken out leaves the others (`perm_eraseIdx`), and one that no longer meets a condition is
taken out of those that do (`perm_filter_of_flip`).
-/

namespace PaxosPayments.Table

variable {α β : Type*} {l l' : List α} {a b : α} {i : ℕ} {f : α → β} {g : α → α}

theorem getElem?_concat (h : l[i]? = some b) (a : α) : (l ++ [a])[i]? = some b := by
  obtain ⟨hi, -⟩ := List.getElem?_eq_some_iff.mp h
  rw [List.getElem?_append_left hi, h]

/-- An entry of a table that has grown is an old one, or the last. -/
theorem getElem?_concat_eq_some :
    (l ++ [a])[i]? = some b ↔ l[i]? = some b ∨ i = l.length ∧ b = a := by
  constructor
  · intro h
    rcases Nat.lt_or_ge i l.length with hi | hi
    · rw [List.getElem?_append_left hi] at h
      exact Or.inl h
    · rw [List.getElem?_append_right hi, List.getElem?_singleton] at h
      split_ifs at h with hz
      exact Or.inr ⟨by omega, (Option.some.inj h).symm⟩
  · rintro (h | ⟨rfl, rfl⟩)
    · exact getElem?_concat h a
    · exact List.getElem?_concat_length

theorem map_set_eq (h : l[i]? = some a) (hf : f b = f a) : (l.set i b).map f = l.map f := by
  refine List.ext_getElem? fun j => ?_
  rw [List.map_set, List.getElem?_set]
  split_ifs with hj hlt
  · rw [← hj, List.getElem?_map, h, hf]
    rfl
  · rw [List.getElem?_eq_none (by omega)]
  · rfl

theorem getElem?_map_set (h : l[i]? = some a) (b : α) (f : α → β) (j : ℕ) :
    ((l.set i b).map f)[j]? = if j = i then some (f b) else (l.map f)[j]? := by
  rw [List.map_set, List.getElem?_set, List.length_map, if_pos (List.getElem?_eq_some_iff.mp h).1]
  simp only [eq_comm]

/-- An entry is replaced by one that meets a condition as well and has the same value. -/
theorem map_filter_set_eq {p : α → Bool} (h : l[i]? = some a) (hp : p b = p a) (hf : f b = f a) :
    ((l.set i b).filter p).map f = (l.filter p).map f := by
  induction l generalizing i with
  | nil => rfl
  | cons c l ih =>
    cases i with
    | zero =>
      obtain rfl := Option.some.inj h
      simp only [List.set_cons_zero, List.filter_cons, hp]
      split_ifs
      · rw [List.map_cons, List.map_cons, hf]
      · rfl
    | succ i =>
      have hrest := ih h
      simp only [List.set_cons_succ, List.filter_cons]
      split_ifs
      · rw [List.map_cons, List.map_cons, hrest]
      · exact hrest

theorem map_modify_eq (hf : ∀ x, f (g x) = f x) (i : ℕ) (l : List α) :
    (l.modify i g).map f = l.map f := by
  refine List.ext_getElem? fun j => ?_
  rw [List.getElem?_map, List.getElem?_map, List.getElem?_modify, Option.map_eq_map,
    Option.map_map]
  congr 1
  funext x
  simp only [Function.comp_apply]
  split_ifs
  · exact hf x
  · rfl

theorem set_modify (i : ℕ) (l : List α) : (l.modify i g).set i b = l.set i b := by
  refine List.ext_getElem? fun j => ?_
  rw [List.getElem?_set, List.getElem?_set, List.length_modify, List.getElem?_modify]
  split_ifs with hj
  · rfl
  · rfl
  · exact Option.map_id_apply

/-- An entry keeps its position. -/
theorem exists_of_map_eq (h : l'.map f = l.map f) (ha : l[i]? = some a) :
    ∃ b, l'[i]? = some b ∧ f b = f a := by
  have hi : (l'.map f)[i]? = some (f a) := by
    rw [h, List.getElem?_map, ha]
    rfl
  rwa [List.getElem?_map, Option.map_eq_some_iff] at hi

theorem mem_modify (h : b ∈ l.modify i g) : b ∈ l ∨ ∃ a, l[i]? = some a ∧ b = g a := by
  obtain ⟨j, hj⟩ := List.mem_iff_getElem?.mp h
  rw [List.getElem?_modify] at hj
  obtain ⟨a, ha, rfl⟩ := Option.map_eq_some_iff.mp hj
  split_ifs with hij
  · exact Or.inr ⟨a, hij ▸ ha, rfl⟩
  · exact Or.inl (List.mem_of_getElem? ha)

theorem perm_eraseIdx (h : l[i]? = some a) : (a :: l.eraseIdx i).Perm l := by
  obtain ⟨hi, rfl⟩ := List.getElem?_eq_some_iff.mp h
  exact List.getElem_cons_eraseIdx_perm hi

/-- Where two predicates differ at one position, the entry there is what the second one lacks. -/
theorem perm_filter_of_flip {p q : α → Bool} (h : l[i]? = some a) (hp : p a = true)
    (hq : q a = false) (hsame : ∀ j b, j ≠ i → l[j]? = some b → p b = q b) :
    (l.filter p).Perm (a :: l.filter q) := by
  have hrest : (l.eraseIdx i).filter p = (l.eraseIdx i).filter q := by
    refine List.filter_congr fun b hb => ?_
    obtain ⟨j, hj, hb⟩ := List.mem_eraseIdx_iff_getElem?.mp hb
    exact hsame j b hj hb
  have hleft := ((perm_eraseIdx h).filter p).symm
  have hright := (perm_eraseIdx h).filter q
  rw [List.filter_cons_of_pos hp, hrest] at hleft
  rw [List.filter_cons_of_neg (by simp [hq])] at hright
  exact hleft.trans (hright.cons a)

/-- An entry is the one that is taken out, or is still there. -/
theorem mem_iff_eraseIdx (h : l[i]? = some a) : b ∈ l ↔ b = a ∨ b ∈ l.eraseIdx i := by
  rw [← (perm_eraseIdx h).mem_iff, List.mem_cons]

end PaxosPayments.Table
