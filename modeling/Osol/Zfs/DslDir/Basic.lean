import Osol.Lib.ChildSum

/-!
# Space accounting of DSL directories

`dsl_dir.c` keeps for each directory the space it uses, with a breakdown by what uses it.
A change is propagated to the parent as far as the reservation of the directory does not
absorb it, and the parent's breakdown separates the space its children use from the space
that is only reserved for them.

Counters are words of 64 bits. The model adds to them as integers and stops with a `Fault`
when the sum is not in range, so that a run without faults computes what the code does. The
deltas are integers: as words they are taken modulo `2 ^ 64`, and so are the sums.

Names and the ZAP objects that map them to directories are left out; the children of a
directory are those that point to it.
-/

namespace Osol.Zfs.DslDir

open Osol.Lib Function

inductive DdUsed where
  | head
  | snap
  | child
  | childRsrv
  | refRsrv
  deriving DecidableEq

/-- `dsl_dir_phys_t`; `ddParent` is `dd_parent_obj`, and `flagUsedBreakdown` the flag
`DD_FLAG_USED_BREAKDOWN`. -/
structure DirPhys where
  ddParent : Option ℕ
  usedBytes : ℕ
  compressedBytes : ℕ
  uncompressedBytes : ℕ
  reserved : ℕ
  flagUsedBreakdown : Bool
  usedBreakdown : DdUsed → ℕ

/-- The directories of a pool, by object number. -/
structure State where
  dirs : Finset ℕ
  phys : ℕ → DirPhys

/-- What stops the model. -/
inductive Fault where
  /-- A counter wraps below zero. -/
  | below
  /-- A counter passes `2 ^ 64`. -/
  | above
  /-- The recursion over parents does not end. -/
  | depth
  /-- `dd_parent` is used and is `NULL`. -/
  | null
  deriving DecidableEq

def addDelta (u : ℕ) (d : ℤ) : Except Fault ℕ :=
  if u + d < 0 then .error .below
  else if 2 ^ 64 ≤ u + d then .error .above
  else .ok (u + d).toNat

variable (st : State)

def State.set (dd : ℕ) (d : DirPhys) : State :=
  { st with phys := update st.phys dd d }

def State.setReserved (dd value : ℕ) : State :=
  st.set dd { st.phys dd with reserved := value }

def State.setParent (dd parent : ℕ) : State :=
  st.set dd { st.phys dd with ddParent := some parent }

def parentDelta (d : DirPhys) (used : ℕ) (delta : ℤ) : ℤ :=
  max (used + delta) d.reserved - max (used : ℤ) d.reserved

def dslDirTransferSpace (dd : ℕ) (delta : ℤ) (oldtype newtype : DdUsed) : Except Fault State :=
  let d := st.phys dd
  if delta = 0 ∨ d.flagUsedBreakdown = false then .ok st
  else do
    let o ← addDelta (d.usedBreakdown oldtype) (-delta)
    let b := update d.usedBreakdown oldtype o
    let n ← addDelta (b newtype) delta
    .ok (st.set dd { d with usedBreakdown := update b newtype n })

/-- The counters of one directory in `dsl_dir_diduse_space`. -/
def diduseHere (d : DirPhys) (type : DdUsed) (used compressed uncompressed : ℤ) :
    Except Fault DirPhys := do
  let usedBytes ← addDelta d.usedBytes used
  let uncompressedBytes ← addDelta d.uncompressedBytes uncompressed
  let compressedBytes ← addDelta d.compressedBytes compressed
  if d.flagUsedBreakdown then
    let b ← addDelta (d.usedBreakdown type) used
    .ok { d with usedBytes, uncompressedBytes, compressedBytes
                 usedBreakdown := update d.usedBreakdown type b }
  else .ok { d with usedBytes, uncompressedBytes, compressedBytes }

/-- `dsl_dir_diduse_space`, for at most `n` levels. -/
def dslDirDiduseSpace : ℕ → State → ℕ → DdUsed → ℤ → ℤ → ℤ → Except Fault State
  | 0, _, _, _, _, _, _ => .error .depth
  | n + 1, st, dd, type, used, compressed, uncompressed => do
    let accountedDelta := parentDelta (st.phys dd) (st.phys dd).usedBytes used
    let d ← diduseHere (st.phys dd) type used compressed uncompressed
    match d.ddParent with
    | none => .ok (st.set dd d)
    | some parent => do
      let st ← dslDirDiduseSpace n (st.set dd d) parent .child accountedDelta compressed
        uncompressed
      dslDirTransferSpace st parent (used - accountedDelta) .childRsrv .child

def dslDirSetReservationSync (dd effectiveValue : ℕ) : Except Fault State :=
  let d := st.phys dd
  let delta : ℤ := max (d.usedBytes : ℤ) effectiveValue - max (d.usedBytes : ℤ) d.reserved
  let st := st.setReserved dd effectiveValue
  match d.ddParent with
  | some parent => dslDirDiduseSpace st.dirs.card st parent .childRsrv delta 0 0
  | none => .ok st

/-- The part of `dsl_dir_rename_sync` that moves the space from one parent to the other. -/
def renameSpace (dd parent newparent : ℕ) : Except Fault State := do
  let d := st.phys dd
  let st ← dslDirDiduseSpace st.dirs.card st parent .child
    (-d.usedBytes) (-d.compressedBytes) (-d.uncompressedBytes)
  let d := st.phys dd
  let st ← dslDirDiduseSpace st.dirs.card st newparent .child
    d.usedBytes d.compressedBytes d.uncompressedBytes
  let d := st.phys dd
  if d.usedBytes < d.reserved then
    let unusedRsrv := d.reserved - d.usedBytes
    let st ← dslDirDiduseSpace st.dirs.card st parent .childRsrv (-unusedRsrv) 0 0
    dslDirDiduseSpace st.dirs.card st newparent .childRsrv unusedRsrv 0 0
  else .ok st

def dslDirRenameSync (dd newparent : ℕ) : Except Fault State :=
  match (st.phys dd).ddParent with
  | none => .error .null
  | some parent => do
    let st ← (if newparent ≠ parent then renameSpace st dd parent newparent else .ok st)
    .ok (st.setParent dd newparent)

def spaVersionUsedBreakdown : ℕ := 13

/-- The bonus buffer of a new directory. -/
def newDir (spaVersion : ℕ) (pds : Option ℕ) : DirPhys where
  ddParent := pds
  usedBytes := 0
  compressedBytes := 0
  uncompressedBytes := 0
  reserved := 0
  flagUsedBreakdown := decide (spaVersionUsedBreakdown ≤ spaVersion)
  usedBreakdown := fun _ => 0

/-- `dsl_dir_create_sync`; `ddobj` is what `dmu_object_alloc` returned. -/
def dslDirCreateSync (spaVersion : ℕ) (st : State) (pds : Option ℕ) (ddobj : ℕ) : State where
  dirs := insert ddobj st.dirs
  phys := update st.phys ddobj (newDir spaVersion pds)

def dslDirDestroySync (dd : ℕ) : Except Fault State := do
  let st ← dslDirSetReservationSync st dd 0
  .ok { st with dirs := st.dirs.erase dd }

/-- The operations on the directories of a pool. -/
inductive Op where
  | diduseSpace (dd : ℕ) (type : DdUsed) (used compressed uncompressed : ℤ)
  | setReservation (dd effectiveValue : ℕ)
  | rename (dd newparent : ℕ)
  | create (pds ddobj : ℕ)
  | destroy (dd : ℕ)

/-- One operation. -/
def step (spaVersion : ℕ) (st : State) : Op → Except Fault State
  | .diduseSpace dd type used compressed uncompressed =>
    dslDirDiduseSpace st.dirs.card st dd type used compressed uncompressed
  | .setReservation dd effectiveValue => dslDirSetReservationSync st dd effectiveValue
  | .rename dd newparent => dslDirRenameSync st dd newparent
  | .create pds ddobj => .ok (dslDirCreateSync spaVersion st (some pds) ddobj)
  | .destroy dd => dslDirDestroySync st dd

def State.parent (dd : ℕ) : Option ℕ := (st.phys dd).ddParent

/-- `a` is `dd` or one of its ancestors. -/
def State.Above : ℕ → ℕ → Prop :=
  Relation.ReflTransGen fun e p => st.parent e = some p

/-- What the callers of the operations promise. -/
def Legal : Op → Prop
  | .diduseSpace dd type used compressed uncompressed =>
    dd ∈ st.dirs ∧ type ∈ [.head, .snap, .refRsrv] ∧
      0 ≤ (st.phys dd).usedBreakdown type + used ∧
      -- the part of these that is not the children's
      childSum st.dirs st.parent (fun e => (st.phys e).compressedBytes) dd ≤
        (st.phys dd).compressedBytes + compressed ∧
      childSum st.dirs st.parent (fun e => (st.phys e).uncompressedBytes) dd ≤
        (st.phys dd).uncompressedBytes + uncompressed
  | .setReservation dd effectiveValue => dd ∈ st.dirs ∧ effectiveValue < 2 ^ 64
  | .rename dd newparent => dd ∈ st.dirs ∧ newparent ∈ st.dirs ∧ ¬st.Above newparent dd
  | .create pds ddobj => pds ∈ st.dirs ∧ ddobj ∉ st.dirs
  | .destroy dd => dd ∈ st.dirs ∧ (st.parent dd).isSome ∧ (∀ e ∈ st.dirs, st.parent e ≠ some dd) ∧
      (st.phys dd).usedBytes = 0

end Osol.Zfs.DslDir
