import Osol.Lib.Checked

/-!
# The map of a RAID-Z I/O

`vdev_raidz_map_alloc`, `vdev_raidz_asize` and the I/Os that `vdev_raidz_io_start` sends to the
children for a write. Numbers are `uint64_t`.
-/

namespace Osol.Zfs.Raidz

open Osol.Lib List

def place (dcols n : ℕ) : ℕ × ℕ := (n % dcols, n / dcols)

end Osol.Zfs.Raidz
