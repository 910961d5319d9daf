import Osol.Lib.Checked

/-!
# Slots of transaction groups

Whatever ZFS keeps for a transaction group in flight it keeps in an array of `TXG_SIZE`
cells, at `txg & TXG_MASK`. Four consecutive groups have four cells.
-/

namespace Osol.Zfs

open Osol.Lib Function

/-- `txg & TXG_MASK`. -/
def txgSlot (txg : ℕ) : ℕ := txg &&& 3

def txgClean (txg : ℕ) : ℕ := usub txg 1

def txgDeferSize : ℕ := 2

def txgInitial : ℕ := 4

theorem txgSlot_eq (n : ℕ) : txgSlot n = n % 4 := Nat.and_two_pow_sub_one_eq_mod n 2

theorem txgSlot_add_four (n : ℕ) : txgSlot (n + 4) = txgSlot n := by
  rw [txgSlot_eq, txgSlot_eq]
  omega

theorem txgSlot_clean {n : ℕ} (h : 0 < n) : txgSlot (txgClean n) = txgSlot (n + 3) := by
  rw [txgSlot_eq, txgSlot_eq, txgClean, usub]
  omega

theorem txgSlot_inj {s m n : ℕ} (hm : s ≤ m) (hm' : m ≤ s + 3) (hn : s ≤ n) (hn' : n ≤ s + 3) :
    txgSlot m = txgSlot n ↔ m = n := by
  rw [txgSlot_eq, txgSlot_eq]
  omega

theorem update_slot {β : Type*} {s m n : ℕ} (f : ℕ → β) (v : β) (hm : s ≤ m) (hm' : m ≤ s + 3)
    (hn : s ≤ n) (hn' : n ≤ s + 3) :
    update f (txgSlot n) v (txgSlot m) = if m = n then v else f (txgSlot m) := by
  simp only [update_apply, txgSlot_inj hm hm' hn hn']

end Osol.Zfs
