import Osol.Zfs.Raidz.Geometry

/-!
# The layout of RAID-Z

The columns hold the buffer of the I/O, on different devices, and writes to different
allocations do not meet.
-/

namespace Osol.Zfs.Raidz

open Osol.Lib Nat List

variable {sh D P b s : ℕ}

/-! ## The data -/

/-- An I/O to a RAID-Z vdev whose allocation ends `nparity + 1` sectors below `2 ^ 64`. -/
structure RaidzIo (ashift dcols nparity offset size : ℕ) : Prop where
  parity : 1 ≤ nparity ∧ nparity ≤ 3
  lt : nparity < dcols
  offset_dvd : 2 ^ ashift ∣ offset
  size_dvd : 2 ^ ashift ∣ size
  pos : 0 < size
  room : offset + (rounded dcols nparity (size / 2 ^ ashift) + (nparity + 1)) * 2 ^ ashift ≤ 2 ^ 64
  width : size / 2 ^ ashift + 2 * dcols < 2 ^ 64

theorem RaidzIo.fits {ashift dcols nparity offset size : ℕ}
    (h : RaidzIo ashift dcols nparity offset size) :
    ∃ b s, offset = b * 2 ^ ashift ∧ size = s * 2 ^ ashift ∧ Fits ashift dcols nparity b s := by
  have hpos : 0 < 2 ^ ashift := Nat.two_pow_pos ashift
  obtain ⟨hpar, hlt, ⟨b, rfl⟩, ⟨s, rfl⟩, hs, hroom, hwidth⟩ := h
  rw [Nat.mul_div_cancel_left _ hpos] at hroom hwidth
  refine ⟨b, s, Nat.mul_comm _ _, Nat.mul_comm _ _, hpar, hlt, Nat.pos_of_mul_pos_left hs, ?_, hwidth⟩
  rwa [Nat.mul_comm, ← Nat.add_mul, ← Nat.add_assoc] at hroom

end Osol.Zfs.Raidz
