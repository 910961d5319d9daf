import Mathlib

/-!
# Block by block

A list is processed in blocks of one length; what is left is shorter than a block and waits
for more. Cutting the input anywhere changes nothing.
-/

namespace Osol.Lib

open List Nat

variable {σ α β : Type*}

/-- Every full block of `n` elements goes through `step`: the state, what is left, and the
output. -/
def runBlocks (n : ℕ) (step : σ → List α → σ × List β) (s : σ) (l : List α) : σ × List α × List β :=
  if 0 < n ∧ n ≤ l.length then
    let r := step s (l.take n)
    let q := runBlocks n step r.1 (l.drop n)
    (q.1, q.2.1, r.2 ++ q.2.2)
  else (s, l, [])
  termination_by l.length
  decreasing_by
    rw [length_drop]
    omega

section Run

variable {n : ℕ} {step : σ → List α → σ × List β} {s : σ} {l : List α}

theorem runBlocks_of_lt (h : l.length < n) : runBlocks n step s l = (s, l, []) := by
  rw [runBlocks, if_neg (by omega)]

section

variable (h0 : 0 < n)
include h0

theorem runBlocks_of_le (h : n ≤ l.length) : runBlocks n step s l =
      ((runBlocks n step (step s (l.take n)).1 (l.drop n)).1,
        (runBlocks n step (step s (l.take n)).1 (l.drop n)).2.1,
        (step s (l.take n)).2 ++ (runBlocks n step (step s (l.take n)).1 (l.drop n)).2.2) := by
  rw [runBlocks, if_pos ⟨h0, h⟩]

theorem blocks_induction {motive : List α → Prop} (short : ∀ l : List α, l.length < n → motive l)
    (block : ∀ b l : List α, b.length = n → motive l → motive (b ++ l)) (l : List α) : motive l := by
  induction hl : l.length using Nat.strong_induction_on generalizing l with
  | _ k ih =>
    rcases Nat.lt_or_ge l.length n with h | h
    · exact short l h
    · have := block (l.take n) (l.drop n) (length_take_of_le h)
        (ih (l.drop n).length (by rw [length_drop]; omega) (l.drop n) rfl)
      rwa [take_append_drop] at this

theorem runBlocks_block {b : List α} (hb : b.length = n) (l : List α) : runBlocks n step s (b ++ l) =
      ((runBlocks n step (step s b).1 l).1, (runBlocks n step (step s b).1 l).2.1,
        (step s b).2 ++ (runBlocks n step (step s b).1 l).2.2) := by
  have htake : (b ++ l).take n = b := by rw [← hb, take_left]
  have hdrop : (b ++ l).drop n = l := by rw [← hb, drop_left]
  rw [runBlocks_of_le h0 (by rw [length_append]; omega), htake, hdrop]

theorem runBlocks_append (s : σ) (l k : List α) : runBlocks n step s (l ++ k) =
      ((runBlocks n step (runBlocks n step s l).1 ((runBlocks n step s l).2.1 ++ k)).1,
        (runBlocks n step (runBlocks n step s l).1 ((runBlocks n step s l).2.1 ++ k)).2.1,
        (runBlocks n step s l).2.2 ++
          (runBlocks n step (runBlocks n step s l).1 ((runBlocks n step s l).2.1 ++ k)).2.2) := by
  induction l using blocks_induction h0 generalizing s with
  | short l h =>
    rw [runBlocks_of_lt h]
    rfl
  | block b l hb ih =>
    rw [append_assoc, runBlocks_block h0 hb, runBlocks_block h0 hb, ih]
    simp only [append_assoc]

theorem runBlocks_rest (s : σ) (l : List α) : (runBlocks n step s l).2.1 = l.drop (l.length / n * n) := by
  induction l using blocks_induction h0 generalizing s with
  | short l h => rw [runBlocks_of_lt h, div_eq_of_lt h, Nat.zero_mul, drop_zero]
  | block b l hb ih =>
    rw [runBlocks_block h0 hb, length_append, hb, add_div_left _ h0, succ_mul,
      Nat.add_comm, ih, ← hb, drop_append, drop_eq_nil_of_le (Nat.le_add_right _ _),
      Nat.add_sub_cancel_left, nil_append]

theorem length_runBlocks_rest (s : σ) (l : List α) : (runBlocks n step s l).2.1.length = l.length % n := by
  rw [runBlocks_rest h0, length_drop]
  have := div_add_mod l.length n
  rw [Nat.mul_comm] at this
  omega

end

end Run

end Osol.Lib
