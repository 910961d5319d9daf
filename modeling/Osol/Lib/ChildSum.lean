import Mathlib

/-!
# Sums over the children of a node

A finite set of nodes with a parent pointer each, and the sum of a quantity over the nodes
that point to a given one.
-/

namespace Osol.Lib

open Finset Function

variable {ι : Type*} [DecidableEq ι] {s : Finset ι} {par par' : ι → Option ι} {f f' : ι → ℕ}
  {d e : ι}

def childSum (s : Finset ι) (par : ι → Option ι) (f : ι → ℕ) (d : ι) : ℕ :=
  ∑ e ∈ s with par e = some d, f e

theorem le_childSum (f : ι → ℕ) (he : e ∈ s) (hp : par e = some d) : f e ≤ childSum s par f d :=
  single_le_sum (fun _ _ => Nat.zero_le _) (Finset.mem_filter.2 ⟨he, hp⟩)

theorem childSum_eq_zero (h : ∀ e ∈ s, par e ≠ some d) : childSum s par f d = 0 := by
  unfold childSum
  rw [filter_false_of_mem h, sum_empty]

theorem childSum_congr (hp : ∀ x ∈ s, par x = some d ↔ par' x = some d)
    (hf : ∀ x ∈ s, par x = some d → f x = f' x) :
    childSum s par f d = childSum s par' f' d := by
  refine sum_congr (filter_congr hp) fun x hx => ?_
  obtain ⟨hx, hpx⟩ := Finset.mem_filter.1 hx
  exact hf x hx ((hp x hx).2 hpx)

theorem childSum_eq_add (he : e ∈ s) (hp : par e = some d) :
    childSum s par f d = childSum (s.erase e) par f d + f e := by
  unfold childSum
  rw [filter_erase]
  exact (sum_erase_add _ _ (Finset.mem_filter.2 ⟨he, hp⟩)).symm

theorem childSum_erase_of_ne (hp : par e ≠ some d) : childSum (s.erase e) par f d = childSum s par f d := by
  unfold childSum
  rw [filter_erase, erase_eq_of_notMem]
  exact fun h => hp (Finset.mem_filter.1 h).2

theorem childSum_erase_le : childSum (s.erase e) par f d ≤ childSum s par f d :=
  sum_le_sum_of_subset (filter_subset_filter _ (erase_subset e s))

theorem childSum_erase_of_zero (hz : f e = 0) : childSum (s.erase e) par f d = childSum s par f d := by
  by_cases hp : par e = some d
  · by_cases he : e ∈ s
    · rw [childSum_eq_add he hp, hz, Nat.add_zero]
    · rw [erase_eq_of_notMem he]
  · exact childSum_erase_of_ne hp

theorem childSum_update (f f' : ι → ℕ) (he : e ∈ s) (hp : par e = some d)
    (hf : ∀ x ∈ s, par x = some d → x ≠ e → f x = f' x) :
    childSum s par f' d + f e = childSum s par f d + f' e := by
  have hrest : childSum (s.erase e) par f d = childSum (s.erase e) par f' d :=
    childSum_congr (fun _ _ => Iff.rfl) fun x hx hpx => hf x (mem_of_mem_erase hx) hpx (ne_of_mem_erase hx)
  rw [childSum_eq_add he hp, childSum_eq_add he hp, hrest]
  omega

theorem childSum_attach (he : e ∈ s) (hp : par e ≠ some d) (hp' : par' e = some d)
    (hne : ∀ x, x ≠ e → par x = par' x) :
    childSum s par' f d = childSum s par f d + f e := by
  rw [childSum_eq_add he hp', ← childSum_erase_of_ne hp]
  refine congrArg (· + f e) (childSum_congr (fun x hx => ?_) fun _ _ _ => rfl)
  rw [hne x (ne_of_mem_erase hx)]

theorem childSum_update_none (f : ι → ℕ) (he : e ∈ s) (hp : par e = some d) :
    childSum s par f d = childSum s (update par e none) f d + f e := by
  refine childSum_attach he ?_ hp fun x hx => ?_
  · simp
  · simp [hx]

theorem childSum_update_some (f : ι → ℕ) (d : ι) (he : e ∈ s) (hp : par e = none) :
    childSum s (update par e (some d)) f d = childSum s par f d + f e := by
  refine childSum_attach he ?_ ?_ fun x hx => ?_
  · simp [hp]
  · simp
  · simp [hx]

theorem childSum_of_zero (hz : f e = 0) (hne : ∀ x, x ≠ e → par x = par' x) :
    childSum s par f d = childSum s par' f d := by
  have herase : childSum (s.erase e) par f d = childSum (s.erase e) par' f d := by
    refine childSum_congr (fun x hx => ?_) fun _ _ _ => rfl
    rw [hne x (ne_of_mem_erase hx)]
  rw [← childSum_erase_of_zero hz, herase, childSum_erase_of_zero hz]

theorem childSum_insert (he : e ∉ s) (hp : ∀ x ∈ s, par x = some d ↔ par' x = some d)
    (hf : ∀ x ∈ s, par x = some d → f x = f' x) (hz : f' e = 0) :
    childSum (insert e s) par' f' d = childSum s par f d := by
  rw [← childSum_erase_of_zero hz, erase_insert he]
  exact (childSum_congr hp hf).symm

end Osol.Lib
