import Osol.Zfs.Raidz.Map

/-!
# The geometry of RAID-Z

The columns of a map and the skipped sectors are, in sectors of the vdev, one range: column `c`
has the sectors that are `c` after the first, by whole rows, and the skipped ones follow.
-/

namespace Osol.Zfs.Raidz

open Osol.Lib List Nat

/-! ## The numbers of an I/O -/

section Numbers

variable (D P s : ℕ)

/-- The sectors of data and parity, `tot`. -/
def total : ℕ := s + P * ((s + (D - P - 1)) / (D - P))

/-- The sectors that are allocated. -/
def rounded : ℕ := (total D P s + P) / (P + 1) * (P + 1)

end Numbers

/-- An I/O of `s` sectors at sector `b` on `D` children: its allocation ends `P + 1` sectors
below `2 ^ 64`. -/
structure Fits (sh D P b s : ℕ) : Prop where
  parity : 1 ≤ P ∧ P ≤ 3
  lt : P < D
  pos : 0 < s
  room : (b + rounded D P s + (P + 1)) * 2 ^ sh ≤ 2 ^ 64
  width : s + 2 * D < 2 ^ 64

variable {sh D P b s : ℕ}

variable {n : ℕ}

theorem le_total : s ≤ total D P s := Nat.le_add_right _ _

/-- The swap of the first two columns is made. -/
def Swapped (sh P b : ℕ) : Prop := P = 1 ∧ (b * 2 ^ sh) &&& 2 ^ 20 ≠ 0

instance (sh P b : ℕ) : Decidable (Swapped sh P b) := inferInstanceAs (Decidable (_ ∧ _))

section

variable (h : Fits sh D P b s)
include h

end

/-! ## Where the columns are -/

/-- The place of column `c` in the order of the devices. -/
def slot (sh P b c : ℕ) : ℕ :=
  if Swapped sh P b then if c = 0 then 1 else if c = 1 then 0 else c else c

variable {c : ℕ}

variable {i : ℕ}

section

variable (h : Fits sh D P b s)
include h

end

end Osol.Zfs.Raidz
