import Mathlib

/-!
# Buffers of bytes

A buffer is the function from an index to the byte there. Writing is `update`;
a word of 64 bits is made of the eight bytes from a multiple of eight on.
-/

namespace Osol.Lib

open Function

abbrev Byte := BitVec 8

abbrev Buf := ℕ → Byte

def Agree (n : ℕ) (a b : Buf) : Prop := ∀ x < n, a x = b x

variable {n : ℕ}

theorem Agree.write {a b : Buf} {v : Byte} (h : Agree n a b) (hv : v = b n) :
    Agree (n + 1) (update a n v) b := by
  intro x hx
  by_cases hxn : x = n
  · subst hxn
    rw [update_self, hv]
  · rw [update_of_ne hxn]
    exact h x (by omega)

theorem Agree.write_same {i : ℕ} {p q : Buf} {v : Byte} (h : Agree n p q) :
    Agree n (update p i v) (update q i v) := by
  intro z hz
  by_cases hzi : z = i
  · rw [hzi, update_self, update_self]
  · rw [update_of_ne hzi, update_of_ne hzi]
    exact h z hz

theorem Agree.append {p q : Buf} (v : Byte) (h : Agree n p q) :
    Agree (n + 1) (update p n v) (update q n v) := by
  have hq : Agree n p (update q n v) := by
    intro z hz
    rw [update_of_ne (Nat.ne_of_lt hz)]
    exact h z hz
  exact hq.write (by rw [update_self])

def wordIsZero (d : Buf) (i : ℕ) : Bool :=
  (List.range 8).all fun j => d (8 * i + j) == 0

theorem wordIsZero_iff {d : Buf} {i : ℕ} : wordIsZero d i = true ↔ ∀ j < 8, d (8 * i + j) = 0 := by
  simp [wordIsZero]

end Osol.Lib
