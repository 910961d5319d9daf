import Mathlib

/-!
# Checked computations and 64-bit words

A function of the kernel that can panic is a function into `Option`: `none` is the
panic. `verify` is one `VERIFY`. Words are natural numbers; `uadd` and `usub` wrap
as `uint64_t` does.
-/

namespace Osol.Lib

open Nat

/-- Go on if `p` holds, panic otherwise. -/
def verify (p : Prop) [Decidable p] : Option Unit := if p then some () else none

@[simp] theorem verify_bind_eq_some {α : Type} {p : Prop} [Decidable p] {f : Unit → Option α}
    {r : α} : (verify p >>= f) = some r ↔ p ∧ f () = some r := by
  unfold verify
  split <;> simp_all

theorem verify_bind_of {α : Type} {p : Prop} [Decidable p] (h : p) (f : Unit → Option α) :
    (verify p >>= f) = f () := by
  simp [verify, h]

/-- Sum of two `uint64_t`. -/
def uadd (a b : ℕ) : ℕ := (a + b) % 2 ^ 64

/-- Difference of two `uint64_t`. -/
def usub (a b : ℕ) : ℕ := (a + 2 ^ 64 - b) % 2 ^ 64

variable {a b : ℕ}

theorem uadd_of_lt (h : a + b < 2 ^ 64) : uadd a b = a + b := mod_eq_of_lt h

theorem usub_of_le (h : b ≤ a) (ha : a < 2 ^ 64) : usub a b = a - b := by
  unfold usub
  omega

def p2phase (x align : ℕ) : ℕ := x &&& (align - 1)

theorem p2phase_two_pow (x n : ℕ) : p2phase x (2 ^ n) = x % 2 ^ n :=
  and_two_pow_sub_one_eq_mod x n

theorem p2phase_eq_zero {x n : ℕ} : p2phase x (2 ^ n) = 0 ↔ 2 ^ n ∣ x := by
  rw [p2phase_two_pow, dvd_iff_mod_eq_zero]

/-! ## Runs -/

section Run

variable {σ ω : Type*} {step : σ → ω → Option σ}

end Run

end Osol.Lib
