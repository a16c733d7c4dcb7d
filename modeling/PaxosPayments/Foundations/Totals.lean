import Mathlib.Algebra.BigOperators.Group.Finset.Basic
import Mathlib.Data.Finmap
import Mathlib.Data.Fintype.Basic
import Mathlib.Tactic.Abel

/-!
# Totals

The sum of a quantity over the bindings of a finite map, in any order of visiting them. `total f m`
is determined by what each key contributes (`total_congr`), so that maps which differ in bindings
that contribute nothing have the same total. One binding at a time, `total_insert` and `total_erase`
say how the total changes.

`sum_update` and `sum_map_changed` do the same for a sum over a family and over a list of which one
member changes.
-/

namespace PaxosPayments

variable {κ ν M : Type*} [AddCommMonoid M]

/-- The sum of `f` over the bindings of `m`. -/
def total (f : κ → ν → M) (m : Finmap fun _ : κ => ν) : M :=
  (m.entries.map fun e => f e.1 e.2).sum

variable [DecidableEq κ]

/-- What the key `k` contributes to a total over `m`. -/
def share (f : κ → ν → M) (m : Finmap fun _ : κ => ν) (k : κ) : M :=
  (m.lookup k).elim 0 (f k)

variable {f g : κ → ν → M} {m m' : Finmap fun _ : κ => ν} {k : κ} {v : ν}

theorem share_of_lookup_some (h : m.lookup k = some v) : share f m k = f k v := by
  simp [share, h]

theorem share_of_lookup_none (h : m.lookup k = none) : share f m k = 0 := by
  simp [share, h]

theorem total_eq_sum (f : κ → ν → M) (m : Finmap fun _ : κ => ν) :
    total f m = ∑ k ∈ m.keys, share f m k := by
  have hsum : ∑ k ∈ m.keys, share f m k = (m.entries.map fun e => share f m e.1).sum := by
    simp [Finset.sum, Finmap.keys, Multiset.keys]
  rw [hsum, total]
  congr 1
  refine Multiset.map_congr rfl fun e he => ?_
  rw [share_of_lookup_some (Finmap.lookup_eq_some_iff.mpr he)]

/-- **A total is determined by the shares.** -/
theorem total_congr (h : ∀ k, share f m k = share g m' k) : total f m = total g m' := by
  rw [total_eq_sum, total_eq_sum]
  have hzero : ∀ (f : κ → ν → M) (m : Finmap fun _ : κ => ν), ∀ k ∉ m.keys, share f m k = 0 :=
    fun f m k hk => share_of_lookup_none (Finmap.lookup_eq_none.mpr (mt Finmap.mem_keys.mpr hk))
  calc ∑ k ∈ m.keys, share f m k = ∑ k ∈ m.keys ∪ m'.keys, share f m k :=
        Finset.sum_subset Finset.subset_union_left fun k _ hk => hzero f m k hk
    _ = ∑ k ∈ m.keys ∪ m'.keys, share g m' k := Finset.sum_congr rfl fun k _ => h k
    _ = ∑ k ∈ m'.keys, share g m' k :=
        (Finset.sum_subset Finset.subset_union_right fun k _ hk => hzero g m' k hk).symm

/-- A binding that is there already may be inserted again. -/
theorem insert_eq_self (h : m.lookup k = some v) : m.insert k v = m := by
  refine Finmap.ext_lookup fun x => ?_
  by_cases hx : x = k
  · subst hx
    rw [h, Finmap.lookup_insert]
  · rw [Finmap.lookup_insert_of_ne _ hx]

theorem total_insert (f : κ → ν → M) (m : Finmap fun _ : κ => ν) (k : κ) (v : ν) :
    total f (m.insert k v) = f k v + total f (m.erase k) := by
  have hm : m.insert k v = (m.erase k).insert k v := by
    refine Finmap.ext_lookup fun x => ?_
    by_cases hx : x = k
    · subst hx
      rw [Finmap.lookup_insert, Finmap.lookup_insert]
    · rw [Finmap.lookup_insert_of_ne _ hx, Finmap.lookup_insert_of_ne _ hx,
        Finmap.lookup_erase_ne hx]
  rw [hm, total, Finmap.entries_insert_of_notMem Finmap.notMem_erase_self]
  simp [total]

theorem total_erase (f : κ → ν → M) (m : Finmap fun _ : κ => ν) (k : κ) :
    total f m = share f m k + total f (m.erase k) := by
  cases hk : m.lookup k with
  | none =>
    rw [share_of_lookup_none hk, zero_add]
    refine total_congr fun x => ?_
    by_cases hx : x = k
    · subst hx
      rw [share_of_lookup_none hk, share_of_lookup_none (Finmap.lookup_erase x m)]
    · simp [share, Finmap.lookup_erase_ne hx]
  | some v =>
    rw [share_of_lookup_some hk, ← total_insert, insert_eq_self hk]

/-- Replacing a binding changes a total by the difference. -/
theorem total_replace (h : m.lookup k = some v) (f : κ → ν → M) (v' : ν) :
    f k v + total f (m.insert k v') = f k v' + total f m := by
  rw [total_insert, total_erase f m k, share_of_lookup_some h]
  exact add_left_comm _ _ _

/-- A sum over a family of which one member is replaced. -/
theorem sum_update {ι α G : Type*} [Fintype ι] [DecidableEq ι] [AddCommGroup G] (g : α → G)
    (f : ι → α) (k : ι) (v : α) :
    ∑ i, g (Function.update f k v i) = ∑ i, g (f i) + (g v - g (f k)) := by
  have hrest : ∑ i ∈ Finset.univ.erase k, g (Function.update f k v i) =
      ∑ i ∈ Finset.univ.erase k, g (f i) :=
    Finset.sum_congr rfl fun i hi => by rw [Function.update_of_ne (Finset.ne_of_mem_erase hi)]
  rw [← Finset.add_sum_erase _ _ (Finset.mem_univ k), hrest, Function.update_self,
    ← Finset.add_sum_erase _ (fun i => g (f i)) (Finset.mem_univ k)]
  abel

/-- A sum over a list in which the summand of one entry changes by `d`. -/
theorem sum_map_changed {α : Type*} {f g : α → M} {d : M} {l : List α} {j : ℕ} {x : α}
    (hx : l[j]? = some x) (hd : g x = f x + d)
    (hrest : ∀ (i : ℕ) (y : α), l[i]? = some y → i ≠ j → g y = f y) :
    (l.map g).sum = (l.map f).sum + d := by
  induction l generalizing j with
  | nil => simp at hx
  | cons y l ih =>
    cases j with
    | zero =>
      obtain rfl : y = x := by simpa using hx
      have htail : l.map g = l.map f := by
        refine List.map_congr_left fun z hz => ?_
        obtain ⟨i, hi⟩ := List.mem_iff_getElem?.mp hz
        exact hrest (i + 1) z (by simpa using hi) (by omega)
      rw [List.map_cons, List.map_cons, List.sum_cons, List.sum_cons, htail, hd]
      exact add_right_comm _ _ _
    | succ j =>
      have htail := ih (j := j) (by simpa using hx) fun i z hi hij =>
        hrest (i + 1) z (by simpa using hi) (by omega)
      rw [List.map_cons, List.map_cons, List.sum_cons, List.sum_cons, htail,
        hrest 0 y (by simp) (by omega), add_assoc]

end PaxosPayments
