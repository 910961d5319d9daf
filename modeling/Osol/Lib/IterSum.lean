import Mathlib

/-!
# Sums of sums

`iterSum j f n` is what is left of `f 0 .. f (n - 1)` when partial sums are taken `j + 1` times:
each term counts with a binomial coefficient of its distance from the end.
-/

namespace Osol.Lib

open Finset Nat

section Semiring

variable {R : Type*} [CommSemiring R]

def iterSum (j : ℕ) (f : ℕ → R) (n : ℕ) : R :=
  ∑ i ∈ range n, ((n - 1 - i + j).choose j : R) * f i

theorem iterSum_zero_succ (f : ℕ → R) (n : ℕ) : iterSum 0 f (n + 1) = iterSum 0 f n + f n := by
  simp [iterSum, sum_range_succ]

theorem iterSum_succ_succ (j : ℕ) (f : ℕ → R) (n : ℕ) :
    iterSum (j + 1) f (n + 1) = iterSum (j + 1) f n + iterSum j f (n + 1) := by
  unfold iterSum
  rw [sum_range_succ, sum_range_succ (fun i => ((n + 1 - 1 - i + j).choose j : R) * f i),
    ← add_assoc (∑ i ∈ range n, ((n - 1 - i + (j + 1)).choose (j + 1) : R) * f i), ← sum_add_distrib]
  congr 1
  · refine sum_congr rfl fun i hi => ?_
    have hi : i < n := mem_range.1 hi
    rw [show n + 1 - 1 - i + (j + 1) = n - i + j + 1 by omega,
      show n - 1 - i + (j + 1) = n - i + j by omega, show n + 1 - 1 - i + j = n - i + j by omega,
      choose_succ_succ]
    push_cast
    ring
  · simp

end Semiring

/-! ## Few terms -/

variable {s : Finset ℕ} {f : ℕ → ℤ} {n : ℕ}

section

variable (j : ℕ) (hs : s ⊆ range n) (hf : ∀ i ∈ range n, i ∉ s → f i = 0)
include j hs hf

theorem iterSum_eq_sum : iterSum j f n = ∑ i ∈ s, ((n - 1 - i + j).choose j : ℤ) * f i :=
  (sum_subset hs fun i hi hn => by rw [hf i hi hn, mul_zero]).symm

theorem abs_iterSum_le {B : ℤ} (hB : ∀ i, |f i| ≤ B) :
    |iterSum j f n| ≤ s.card * (((n - 1 + j).choose j : ℕ) * B) := by
  rw [iterSum_eq_sum j hs hf]
  refine (abs_sum_le_sum_abs _ _).trans ((sum_le_card_nsmul s _ _ fun i _ => ?_).trans_eq
    (nsmul_eq_mul _ _))
  rw [abs_mul, abs_cast]
  refine mul_le_mul ?_ (hB i) (abs_nonneg _) (Int.natCast_nonneg _)
  exact_mod_cast choose_le_choose j (by omega)

end

theorem exists_others {i : ℕ} (hcard : s.card ≤ 3) (hi : i ∈ s) :
    ∃ u v, u ≠ i ∧ v ≠ i ∧ ∀ k ∈ s, k ≠ i → k = u ∨ k = v := by
  have herase : (s.erase i).card ≤ 2 := by
    rw [card_erase_of_mem hi]
    omega
  have hmem : ∀ k, k ∈ s.erase i ↔ k ≠ i ∧ k ∈ s := fun k => mem_erase
  rcases (show (s.erase i).card = 0 ∨ (s.erase i).card = 1 ∨ (s.erase i).card = 2 by omega) with h | h | h
  · rw [Finset.card_eq_zero] at h
    refine ⟨i + 1, i + 1, by omega, by omega, fun k hk hki => ?_⟩
    exact absurd ((hmem k).2 ⟨hki, hk⟩) (h ▸ notMem_empty k)
  · obtain ⟨u, hu⟩ := card_eq_one.1 h
    have hui : u ∈ s.erase i := by simp [hu]
    refine ⟨u, u, ((hmem u).1 hui).1, ((hmem u).1 hui).1, fun k hk hki => ?_⟩
    have := (hmem k).2 ⟨hki, hk⟩
    rw [hu, mem_singleton] at this
    exact .inl this
  obtain ⟨u, v, -, huv⟩ := card_eq_two.1 h
  have hui : u ∈ s.erase i := by simp [huv]
  have hvi : v ∈ s.erase i := by simp [huv]
  refine ⟨u, v, ((hmem u).1 hui).1, ((hmem v).1 hvi).1, fun k hk hki => ?_⟩
  have := (hmem k).2 ⟨hki, hk⟩
  rwa [huv, mem_insert, mem_singleton] at this

theorem two_mul_choose_two (m : ℕ) : 2 * (m + 2).choose 2 = (m + 2) * (m + 1) := by
  rw [choose_two_right, Nat.mul_div_cancel' (even_mul_pred_self (m + 2)).two_dvd]
  rfl

/-- Three terms are determined by the first three orders: if these are zero, so are the terms. -/
theorem eq_zero_of_iterSum (hs : s ⊆ range n)
    (hf : ∀ i ∈ range n, i ∉ s → f i = 0) (hcard : s.card ≤ 3) (h0 : iterSum 0 f n = 0)
    (h1 : iterSum 1 f n = 0) (h2 : iterSum 2 f n = 0) {i : ℕ} (hi : i ∈ s) : f i = 0 := by
  obtain ⟨u, v, hu, hv, huv⟩ := exists_others hcard hi
  -- A polynomial of degree two in the distance that vanishes at the other two terms.
  have hpoly : ∀ k ∈ s, ((k : ℤ) - u) * (k - v) =
      2 * ((n - 1 - k + 2).choose 2 : ℕ) - (3 + 2 * (n - 1) - u - v) * ((n - 1 - k + 1).choose 1 : ℕ) +
        (1 + (2 * (n - 1) - u - v) + (n - 1 - u) * (n - 1 - v)) * ((n - 1 - k + 0).choose 0 : ℕ) := by
    intro k hk
    have hkn : k < n := mem_range.1 (hs hk)
    obtain ⟨m, hm⟩ : ∃ m : ℕ, n = k + m + 1 := ⟨n - 1 - k, by omega⟩
    have h2 : 2 * ((m + 2).choose 2 : ℤ) = (m + 2) * (m + 1) := by exact_mod_cast two_mul_choose_two m
    rw [show n - 1 - k = m by omega, hm]
    simp only [choose_one_right, choose_zero_right]
    push_cast
    linear_combination -h2
  have hsum : ∑ k ∈ s, ((k : ℤ) - u) * (k - v) * f k = 0 := by
    have h0' := (iterSum_eq_sum 0 hs hf).symm.trans h0
    have h1' := (iterSum_eq_sum 1 hs hf).symm.trans h1
    have h2' := (iterSum_eq_sum 2 hs hf).symm.trans h2
    rw [sum_congr rfl fun k hk => by rw [hpoly k hk]]
    simp only [add_mul, sub_mul, mul_assoc, sum_add_distrib, sum_sub_distrib, ← mul_sum]
    simp only [h0', h1', h2']
    ring
  rw [sum_eq_single i (fun k hk hki => ?_) fun h => absurd hi h] at hsum
  · have hui : (i : ℤ) - u ≠ 0 := by omega
    have hvi : (i : ℤ) - v ≠ 0 := by omega
    simpa [hui, hvi] using hsum
  · rcases huv k hk hki with rfl | rfl <;> simp

end Osol.Lib
