import Mathlib

/-!
# Ring buffers

A ring of a power of two slots, with positions that only grow: position `p` is in the slot
`p &&& mask`.
-/

namespace Osol.Lib

open Function List Nat

variable {α : Type} {buf : ℕ → α} {mask lo hi k : ℕ} {q : List α} {x : α}

structure RingHolds (buf : ℕ → α) (mask lo hi : ℕ) (q : List α) : Prop where
  length : hi = lo + q.length
  entry : ∀ i, i < q.length → q[i]? = some (buf ((lo + i) &&& mask))

theorem and_mask (hk : mask + 1 = 2 ^ k) (p : ℕ) : p &&& mask = p % (mask + 1) := by
  have h := and_two_pow_sub_one_eq_mod p k
  rwa [← hk, Nat.add_sub_cancel] at h

theorem slot_ne {p p' : ℕ} (hk : mask + 1 = 2 ^ k) (hlt : p < p') (hle : p' ≤ p + mask) :
    p &&& mask ≠ p' &&& mask := by
  rw [and_mask hk, and_mask hk]
  intro he
  have hdvd : mask + 1 ∣ p' - p := dvd_of_mod_eq_zero (sub_mod_eq_zero_of_mod_eq he.symm)
  have := le_of_dvd (by omega) hdvd
  omega

namespace RingHolds

theorem nil (buf : ℕ → α) (mask lo : ℕ) : RingHolds buf mask lo lo [] :=
  ⟨rfl, fun i hi => absurd hi (Nat.not_lt_zero i)⟩

theorem eq_nil_iff (h : RingHolds buf mask lo hi q) : q = [] ↔ lo = hi := by
  have := h.length
  rw [← length_eq_zero_iff]
  omega

theorem enqueue (h : RingHolds buf mask lo hi q) (hk : mask + 1 = 2 ^ k) (hlen : q.length ≤ mask)
    (x : α) : RingHolds (update buf (hi &&& mask) x) mask lo (hi + 1) (q ++ [x]) where
  length := by
    rw [length_append, length_singleton, h.length]
    omega
  entry := by
    intro i hi'
    rw [length_append, length_singleton] at hi'
    have hlength := h.length
    rcases Nat.lt_or_ge i q.length with hlt | hge
    · rw [List.getElem?_append_left hlt, update_of_ne]
      · exact h.entry i hlt
      · exact slot_ne hk (by omega) (by omega)
    · obtain rfl : i = q.length := by omega
      rw [List.getElem?_append_right le_rfl, Nat.sub_self, ← hlength, update_self]
      rfl

theorem head (h : RingHolds buf mask lo hi (x :: q)) : buf (lo &&& mask) = x :=
  (Option.some.inj (h.entry 0 (zero_lt_succ _))).symm

theorem dequeue (h : RingHolds buf mask lo hi (x :: q)) : RingHolds buf mask (lo + 1) hi q where
  length := by
    have := h.length
    rw [length_cons] at this
    omega
  entry := by
    intro i hi'
    have := h.entry (i + 1) (succ_lt_succ hi')
    rw [List.getElem?_cons_succ] at this
    rw [this, Nat.add_right_comm, Nat.add_assoc]

end RingHolds

end Osol.Lib
