import Mathlib

/-!
# Numbers in digits

A list of `w`-bit words is a number in base `2^w`, with the least significant word first.
-/

namespace Osol.Lib

open List

variable {w : ℕ}

/-- The number with these digits. -/
def num : List (BitVec w) → ℕ
  | [] => 0
  | d :: ds => d.toNat + 2 ^ w * num ds

@[simp] theorem num_nil : num ([] : List (BitVec w)) = 0 := rfl

theorem num_cons (d : BitVec w) (ds : List (BitVec w)) : num (d :: ds) = d.toNat + 2 ^ w * num ds := rfl

theorem num_append (l l' : List (BitVec w)) : num (l ++ l') = num l + (2 ^ w) ^ l.length * num l' := by
  induction l with
  | nil => simp
  | cons d l ih =>
    rw [cons_append, num_cons, num_cons, ih, length_cons]
    ring

variable (l : List (BitVec w))

theorem num_lt : num l < (2 ^ w) ^ l.length := by
  induction l with
  | nil => simp
  | cons d l ih =>
    rw [num_cons, length_cons, pow_succ']
    calc d.toNat + 2 ^ w * num l < 2 ^ w + 2 ^ w * num l := by omega
      _ = 2 ^ w * (num l + 1) := by ring
      _ ≤ 2 ^ w * (2 ^ w) ^ l.length := Nat.mul_le_mul_left _ ih

theorem num_singleton (d : BitVec w) : num [d] = d.toNat := by simp [num_cons]

theorem num_concat (d : BitVec w) : num (l ++ [d]) = num l + (2 ^ w) ^ l.length * d.toNat := by
  rw [num_append, num_singleton]

theorem num_concat_zero : num (l ++ [0]) = num l := by simp [num_concat]

theorem num_replicate_zero (n : ℕ) : num (replicate n (0 : BitVec w)) = 0 := by
  induction n with
  | zero => rfl
  | succ n ih => rw [replicate_succ, num_cons, ih]; simp

theorem num_append_zeros (n : ℕ) : num (l ++ replicate n 0) = num l := by
  rw [num_append, num_replicate_zero, Nat.mul_zero, Nat.add_zero]

theorem num_take_add_drop {n : ℕ} (h : n ≤ l.length) :
    num (l.take n) + (2 ^ w) ^ n * num (l.drop n) = num l := by
  have happ := num_append (l.take n) (l.drop n)
  rw [take_append_drop, length_take_of_le h] at happ
  exact happ.symm

theorem num_injective : ∀ {l l' : List (BitVec w)}, l.length = l'.length → num l = num l' → l = l'
  | [], [], _, _ => rfl
  | d :: l, d' :: l', hlen, h => by
    rw [num_cons, num_cons] at h
    have hd := d.isLt
    have hd' := d'.isLt
    have hmod := congrArg (· % 2 ^ w) h
    simp only [Nat.add_mul_mod_self_left, Nat.mod_eq_of_lt hd, Nat.mod_eq_of_lt hd'] at hmod
    have htail : num l = num l' := Nat.eq_of_mul_eq_mul_left (Nat.two_pow_pos w) (by omega)
    rw [BitVec.eq_of_toNat_eq hmod, num_injective (by simpa using hlen) htail]

end Osol.Lib
