import Mathlib

/-!
# Montgomery forms

Residues modulo `N` are kept multiplied with `R`, and a product is divided by `R` without a division
by `N`. The residues are at most `N`: zero has two forms, and a form of zero that is not zero itself
stays so.
-/

namespace Osol.Lib

open Nat

variable {N R : ℕ}

/-- What is left of `t` after the division by `R`: at most `N`, and zero only for zero. -/
structure Redc (N R t v : ℕ) : Prop where
  le : v ≤ N
  modEq : v * R ≡ t [MOD N]
  eq_zero : v = 0 ↔ t = 0

/-- A multiple of `N` makes `t` divisible by `R`, and one `N` comes off the quotient if that is
greater than `N`. -/
theorem Redc.of_sum (hR : Coprime N R) (hNR : N < R) (hN : 0 < N) {t m V : ℕ} (ht : t ≤ N * N)
    (hm : m < R) (hV : V * R = t + N * m) : Redc N R t (if N < V then V - N else V) := by
  have hmod : V * R ≡ t [MOD N] := by
    rw [hV]
    exact (modEq_iff_dvd' (by omega)).2 (by simp) |>.symm
  have hlt : V < N + N := by
    apply Nat.lt_of_mul_lt_mul_right
    calc V * R = t + N * m := hV
      _ < N * R + N * R := by nlinarith
      _ = (N + N) * R := by ring
  have hzero : t = 0 → V < N → V = 0 := fun h0 hlt => by
    rw [h0] at hmod
    have hdvd := hR.dvd_of_dvd_mul_right (modEq_zero_iff_dvd.1 hmod)
    exact eq_zero_of_dvd_of_lt hdvd hlt
  have hpos : 0 < t → 0 < V := fun h0 => by
    by_contra hV0
    rw [Nat.eq_zero_of_not_pos hV0] at hV
    omega
  have hle : t = 0 → V < N := fun h0 => by
    apply Nat.lt_of_mul_lt_mul_right
    rw [hV, h0, Nat.zero_add]
    exact Nat.mul_lt_mul_of_pos_left hm hN
  split_ifs with hgt
  · refine ⟨by omega, ?_, by omega⟩
    rw [Nat.sub_mul]
    refine Nat.ModEq.trans ?_ hmod
    exact (modEq_iff_dvd' (sub_le _ _)).2 (by
      rw [Nat.sub_sub_self (Nat.mul_le_mul_right R hgt.le)]
      exact Nat.dvd_mul_right _ _)
  · refine ⟨by omega, hmod, ?_⟩
    constructor
    · intro h0
      by_contra ht0
      omega
    · intro h0
      exact hzero h0 (hle h0)

structure MontPow (N R A k v : ℕ) : Prop where
  le : v ≤ N
  modEq : v ≡ A ^ k * R [MOD N]
  eq_zero : v = 0 ↔ N = 1 ∨ 0 < k ∧ A = 0

namespace MontPow

variable {A j k v v' r : ℕ}

theorem mul_le (hv : MontPow N R A j v) (hv' : MontPow N R A k v') : v * v' ≤ N * N :=
  Nat.mul_le_mul hv.le hv'.le

section

variable (hR : Coprime N R)
include hR

theorem mul (hv : MontPow N R A j v) (hv' : MontPow N R A k v')
    (hr : Redc N R (v * v') r) : MontPow N R A (j + k) r := by
  refine ⟨hr.le, ?_, ?_⟩
  · apply ModEq.cancel_right_of_coprime hR
    calc r * R ≡ v * v' [MOD N] := hr.modEq
      _ ≡ A ^ j * R * (A ^ k * R) [MOD N] := hv.modEq.mul hv'.modEq
      _ = A ^ (j + k) * R * R := by ring
  · rw [hr.eq_zero, Nat.mul_eq_zero, hv.eq_zero, hv'.eq_zero]
    omega

theorem conv {a : ℕ} (hr : Redc N R (R * R % N * a) r) :
    r ≤ N ∧ r ≡ a * R [MOD N] ∧ (r = 0 ↔ N = 1 ∨ a = 0) := by
  refine ⟨hr.le, ?_, ?_⟩
  · apply ModEq.cancel_right_of_coprime hR
    calc r * R ≡ R * R % N * a [MOD N] := hr.modEq
      _ ≡ R * R * a [MOD N] := (mod_modEq _ _).mul_right a
      _ = a * R * R := by ring
  rw [hr.eq_zero, Nat.mul_eq_zero]
  have hdvd : R * R % N = 0 ↔ N = 1 := by
    rw [← dvd_iff_mod_eq_zero]
    constructor
    · intro h
      exact (hR.mul_right hR).eq_one_of_dvd h
    · rintro rfl
      exact Nat.one_dvd _
  rw [hdvd]

theorem base (hr : Redc N R (R * R % N * A) r) : MontPow N R A 1 r := by
  obtain ⟨hle, hmod, hzero⟩ := conv hR hr
  exact ⟨hle, by rwa [pow_one], by rw [hzero]; omega⟩

theorem one (hr : Redc N R (R * R % N * 1) r) : MontPow N R A 0 r := by
  obtain ⟨hle, hmod, hzero⟩ := conv hR hr
  exact ⟨hle, by rwa [pow_zero], by rw [hzero]; omega⟩

theorem out (hv : MontPow N R A k v) (hr : Redc N R (v * 1) r) :
    r = if N = 1 ∨ ¬ N ∣ A ^ k ∨ 0 < k ∧ A = 0 then A ^ k % N else N := by
  have hmod : r ≡ A ^ k [MOD N] := by
    apply ModEq.cancel_right_of_coprime hR
    calc r * R ≡ v * 1 [MOD N] := hr.modEq
      _ = v := Nat.mul_one v
      _ ≡ A ^ k * R [MOD N] := hv.modEq
  have hzero : r = 0 ↔ N = 1 ∨ 0 < k ∧ A = 0 := by rw [hr.eq_zero, Nat.mul_one, hv.eq_zero]
  split_ifs with hcase
  · rw [← hmod]
    rcases hr.le.lt_or_eq with hlt | heq
    · exact (mod_eq_of_lt hlt).symm
    rw [heq, mod_self]
    by_contra hN
    rcases hcase with h1 | hdvd | h0
    · exact hN (heq ▸ hzero.2 (.inl h1))
    · refine hdvd (modEq_zero_iff_dvd.1 (hmod.symm.trans ?_))
      rw [heq]
      exact modEq_zero_iff_dvd.2 dvd_rfl
    · exact hN (heq ▸ hzero.2 (.inr h0))
  · rw [not_or, not_or, not_not] at hcase
    have hdvd : N ∣ r := modEq_zero_iff_dvd.1 (hmod.trans (modEq_zero_iff_dvd.2 hcase.2.1))
    have hne : r ≠ 0 := fun h0 => (hzero.1 h0).elim hcase.1 hcase.2.2
    exact Nat.le_antisymm hr.le (le_of_dvd (Nat.pos_of_ne_zero hne) hdvd)

end

end MontPow

end Osol.Lib
