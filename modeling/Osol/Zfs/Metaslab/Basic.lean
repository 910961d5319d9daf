import Osol.Zfs.SpaceMap.Log
import Osol.Zfs.Txg.Slot

/-!
# Metaslabs

A metaslab is a region of a vdev with its free space. While transaction groups are
open, quiescing and syncing, ranges move between its in-core free map `ms_map`, an
allocation and a free map for every txg slot, two maps of deferred frees, and the log
of the space map object with its two headers.

All functions run under `ms_lock`. The lock is dropped in the middle of a load, so a
load is a sequence of steps with its local variables in `msLoad`. The passes of
`metaslab_sync` drop it only around calls into the DMU, where nothing they work on
changes, and are single steps. Of `ms_weight` only `METASLAB_ACTIVE_MASK` matters here.
-/

namespace Osol.Zfs

open Osol.Lib Function

/-- The local variables of a `space_map_load` that has dropped the lock. -/
structure LoadState where
  offset : ℕ
  stop : ℕ
  space : ℕ
  deriving DecidableEq

/-- `metaslab_t`, with the object behind its headers and its entries in the dirty lists
of the vdev. -/
structure Metaslab where
  msSmo : SpaceMapObj
  msSmoSyncing : SpaceMapObj
  msAllocmap : ℕ → SpaceMap
  msFreemap : ℕ → SpaceMap
  msDefermap : ℕ → SpaceMap
  msMap : SpaceMap
  msDeferspace : ℕ
  /-- `ms_weight & METASLAB_ACTIVE_MASK`. -/
  msActive : Bool
  /-- The load in progress. -/
  msLoad : Option LoadState
  /-- The space map object. -/
  msObj : Object
  /-- The slots of `vdev_ms_list` that hold this metaslab. -/
  msDirty : ℕ → Bool

namespace Metaslab

variable (ms : Metaslab)

/-- `vdev_dirty(vd, VDD_METASLAB, msp, txg)`. -/
def vdevDirty (txg : ℕ) : Metaslab :=
  { ms with msDirty := update ms.msDirty (txgSlot txg) true }

/-- `txg_list_remove(&vd->vdev_ms_list, txg)`. -/
def vdevClean (txg : ℕ) : Metaslab :=
  { ms with msDirty := update ms.msDirty (txgSlot txg) false }

def setAllocmap (slot : ℕ) (sm : SpaceMap) : Metaslab :=
  { ms with msAllocmap := update ms.msAllocmap slot sm }

def setFreemap (slot : ℕ) (sm : SpaceMap) : Metaslab :=
  { ms with msFreemap := update ms.msFreemap slot sm }

def setDefermap (slot : ℕ) (sm : SpaceMap) : Metaslab :=
  { ms with msDefermap := update ms.msDefermap slot sm }

end Metaslab

variable (zfsRecover : Bool)

/-- `space_map_claim`, with the empty `smop_claim` of the pickers. -/
def spaceMapClaim : SpaceMap → ℕ → ℕ → Option SpaceMap :=
  spaceMapRemove zfsRecover

/-- `space_map_free`, with the empty `smop_free` of the pickers. -/
def spaceMapFree : SpaceMap → ℕ → ℕ → Option SpaceMap :=
  spaceMapAdd zfsRecover

/-! ## `metaslab_activate` -/

/-- The start of the load, up to its first read. -/
def activateBegin (ms : Metaslab) : Option Metaslab := do
  let (sm, space) ← loadBegin zfsRecover .free ms.msSmo ms.msMap
  some { ms with msMap := sm, msLoad := some ⟨0, ms.msSmo.smoObjsize, space⟩ }

/-- One read of the load. After an error the weight becomes zero. -/
def activateRead (error : ℕ) (l : LoadState) (ms : Metaslab) : Option Metaslab :=
  if error = 0 then do
    let sm ← loadBlock zfsRecover .free ms.msObj l.stop l.offset ms.msMap
    some { ms with msMap := sm, msLoad := some { l with offset := l.offset + blockSize } }
  else some { ms with msMap := loadAbort ms.msMap, msLoad := none, msActive := false }

/-- The end of the load: claim the deferred frees. -/
def activateEnd (l : LoadState) (ms : Metaslab) : Option Metaslab := do
  let sm ← loadEnd true l.space ms.msMap
  let sm ← spaceMapWalk (spaceMapClaim zfsRecover) (ms.msDefermap 0) sm
  let sm ← spaceMapWalk (spaceMapClaim zfsRecover) (ms.msDefermap 1) sm
  some { ms with msMap := sm, msLoad := none }

def metaslabGroupSort (active : Bool) (ms : Metaslab) : Metaslab := { ms with msActive := active }

/-! ## Allocations, claims and frees -/

/-- Record a range in `ms_allocmap[txg & TXG_MASK]`. -/
def recordAlloc (offset size txg : ℕ) (ms : Metaslab) : Option Metaslab := do
  let slot := txgSlot txg
  let ms := if (ms.msAllocmap slot).smSpace = 0 then ms.vdevDirty txg else ms
  let am ← spaceMapAdd zfsRecover (ms.msAllocmap slot) offset size
  some (ms.setAllocmap slot am)

/-- The part of `metaslab_group_alloc` after `smop_alloc` has picked an offset. -/
def metaslabGroupAlloc (offset size txg : ℕ) (ms : Metaslab) : Option Metaslab := do
  let sm ← spaceMapRemove zfsRecover ms.msMap offset size
  recordAlloc zfsRecover offset size txg { ms with msMap := sm }

def enoent : ℕ := 2

/-- `metaslab_claim_dva` after its activation of the metaslab. Returns the error. -/
def metaslabClaimDva (zfsRecover spaWriteable : Bool) (offset size txg : ℕ) (ms : Metaslab) :
    Option (Metaslab × ℕ) := do
  let c ← spaceMapContains ms.msMap offset size
  if c = false then some (ms, enoent)
  else if txg = 0 then some (ms, 0)
  else do
    let sm ← spaceMapClaim zfsRecover ms.msMap offset size
    let ms := { ms with msMap := sm }
    if spaWriteable then do
      let ms ← recordAlloc zfsRecover offset size txg ms
      some (ms, 0)
    else some (ms, 0)

def metaslabFreeDva (spaFreezeTxg offset size txg : ℕ) (now : Bool)
    (ms : Metaslab) : Option Metaslab :=
  let slot := txgSlot txg
  if spaFreezeTxg < txg then some ms
  else if now then do
    let am ← spaceMapRemove zfsRecover (ms.msAllocmap slot) offset size
    let sm ← spaceMapFree zfsRecover ms.msMap offset size
    some { ms.setAllocmap slot am with msMap := sm }
  else do
    let ms := if (ms.msFreemap slot).smSpace = 0 then ms.vdevDirty txg else ms
    let fm ← spaceMapAdd zfsRecover (ms.msFreemap slot) offset size
    some (ms.setFreemap slot fm)

/-! ## `metaslab_sync` -/

/-- What a pass hands to the two calls of `space_map_sync`. -/
structure SyncInput where
  allocmap : SpaceMap
  freemap : SpaceMap
  smo : SpaceMapObj
  obj : Object

/-- The pure allocation map of the condense branch. -/
def condenseMap (txg : ℕ) (freedMap : SpaceMap) (ms : Metaslab) : Option SpaceMap := do
  let (am, _) ← spaceMapVacate [] (none : Option (Unit → ℕ → ℕ → Option Unit))
    (ms.msAllocmap (txgSlot txg)) ()
  let am ← spaceMapAdd zfsRecover am am.smStart am.smSize
  let am ← spaceMapWalk (spaceMapRemove zfsRecover) ms.msMap am
  let am ← spaceMapWalk (spaceMapRemove zfsRecover) freedMap am
  let am ← spaceMapWalk (spaceMapRemove zfsRecover) (ms.msDefermap 0) am
  let am ← spaceMapWalk (spaceMapRemove zfsRecover) (ms.msDefermap 1) am
  let am ← spaceMapWalk (spaceMapRemove zfsRecover) (ms.msAllocmap (txgSlot (txg + 1))) am
  spaceMapWalk (spaceMapRemove zfsRecover) (ms.msAllocmap (txgSlot (txg + 2))) am

/-- The condense branch: the pure allocation map, an empty free map, a truncated object. -/
def condenseInput (txg : ℕ) (freedMap : SpaceMap) (ms : Metaslab) : Option SyncInput := do
  let am ← condenseMap zfsRecover txg freedMap ms
  let (fm, _) ← spaceMapVacate [] (none : Option (Unit → ℕ → ℕ → Option Unit))
    (ms.msFreemap (txgSlot txg)) ()
  let (smo, obj) := spaceMapTruncate ms.msObj
  some ⟨am, fm, smo, obj⟩

/-- What the pass writes when it does not condense: the maps of the txg. -/
def appendInput (txg : ℕ) (ms : Metaslab) : SyncInput where
  allocmap := ms.msAllocmap (txgSlot txg)
  freemap := ms.msFreemap (txgSlot txg)
  smo := ms.msSmoSyncing
  obj := ms.msObj

/-- The two calls of `space_map_sync` that end a pass. `order` is the order in which
`avl_destroy_nodes` takes a map apart. -/
def writeMaps (syncPass txg : ℕ) (order : SpaceMap → List ℕ) (i : SyncInput) :
    Option SyncInput := do
  let (am, smo, obj) ← spaceMapSync .alloc syncPass txg (order i.allocmap) i.allocmap i.smo i.obj
  let (fm, smo, obj) ← spaceMapSync .free syncPass txg (order i.freemap) i.freemap smo obj
  some ⟨am, fm, smo, obj⟩

/-- The test that makes a pass condense the object. -/
def wantsCondense (syncPass : ℕ) (ms : Metaslab) : Bool :=
  ms.msMap.smLoaded && decide (syncPass = 1) &&
    decide (2 * 8 * ms.msMap.smRoot.length ≤ ms.msSmoSyncing.smoObjsize)

/-- The pass after its early return, when it condenses or when it does not. -/
def metaslabWrite (zfsRecover condense : Bool) (syncPass txg : ℕ) (order : SpaceMap → List ℕ)
    (ms : Metaslab) : Option Metaslab := do
  let slot := txgSlot txg
  let freedMap ← spaceMapWalk (spaceMapAdd zfsRecover) (ms.msFreemap slot)
    (ms.msFreemap (txgSlot (txgClean txg)))
  let i ← if condense then condenseInput zfsRecover txg freedMap ms
    else some (appendInput txg ms)
  let o ← writeMaps syncPass txg order i
  let ms := (ms.setFreemap (txgSlot (txgClean txg)) freedMap).setFreemap slot o.freemap
  some { ms.setAllocmap slot o.allocmap with msSmoSyncing := o.smo, msObj := o.obj }

def metaslabSync (syncPass txg : ℕ) (order : SpaceMap → List ℕ) (ms : Metaslab) : Option Metaslab :=
  if (ms.msAllocmap (txgSlot txg)).smSpace = 0 ∧ (ms.msFreemap (txgSlot txg)).smSpace = 0 then
    some ms
  else metaslabWrite zfsRecover (wantsCondense syncPass ms) syncPass txg order ms

def vdevSync (syncPass txg : ℕ) (order : SpaceMap → List ℕ) (ms : Metaslab) : Option Metaslab := do
  let ms ← metaslabSync zfsRecover syncPass txg order (ms.vdevClean txg)
  some (ms.vdevDirty (txgClean txg))

/-! ## `metaslab_sync_done` -/

def createMaps (ms : Metaslab) : Metaslab :=
  let sm := spaceMapCreate ms.msMap.smStart ms.msMap.smSize ms.msMap.smShift
  { ms with msAllocmap := fun _ => sm, msFreemap := fun _ => sm, msDefermap := fun _ => sm }

/-- Whether all future allocations have synced. -/
def evictable (txg : ℕ) (ms : Metaslab) : Bool :=
  decide ((ms.msAllocmap (txgSlot (txg + 1))).smSpace = 0) &&
    decide ((ms.msAllocmap (txgSlot (txg + 2))).smSpace = 0)

/-- Unload a map that is loaded but no longer active. -/
def evict (metaslabDebug : Bool) (txg : ℕ) (ms : Metaslab) : Metaslab :=
  if ms.msMap.smLoaded ∧ ms.msActive = false ∧ evictable txg ms ∧ metaslabDebug = false then
    { ms with msMap := spaceMapUnload ms.msMap }
  else ms

variable (metaslabDebug fragmented : Bool)

/-- `metaslab_sync_done`: `fragmented` is what the picker says to `metaslab_weight`. -/
def metaslabSyncDone (txg : ℕ) (order : SpaceMap → List ℕ) (ms : Metaslab) : Option Metaslab := do
  let clean := txgSlot (txgClean txg)
  let slot := txg % txgDeferSize
  let ms := if (ms.msFreemap clean).smSize = 0 then createMaps ms else ms
  let freedMap := ms.msFreemap clean
  let deferMap := ms.msDefermap slot
  let deferDelta := usub freedMap.smSpace deferMap.smSpace
  let (deferMap, sm) ← spaceMapVacate (order deferMap)
    (if ms.msMap.smLoaded then some (spaceMapFree zfsRecover) else none) deferMap ms.msMap
  let (freedMap, deferMap) ← spaceMapVacate (order freedMap) (some (spaceMapAdd zfsRecover))
    freedMap deferMap
  let ms := (ms.setDefermap slot deferMap).setFreemap clean freedMap
  let ms := { ms with
    msMap := sm, msSmo := ms.msSmoSyncing, msDeferspace := uadd ms.msDeferspace deferDelta }
  let ms := if ms.msDeferspace ≠ 0 then ms.vdevDirty (txg + 1) else ms
  let ms := evict metaslabDebug txg ms
  some (metaslabGroupSort (ms.msActive && ms.msMap.smLoaded && !fragmented) ms)

def vdevSyncDone (txg : ℕ) (order : SpaceMap → List ℕ) (ms : Metaslab) : Option Metaslab :=
  metaslabSyncDone zfsRecover metaslabDebug fragmented txg order (ms.vdevClean (txgClean txg))

/-! ## `metaslab_init` -/

def metaslabZero (smo : SpaceMapObj) (obj : Object) (sm : SpaceMap) : Metaslab where
  msSmo := ⟨0, 0⟩
  msSmoSyncing := smo
  msAllocmap := fun _ => spaceMapCreate 0 0 0
  msFreemap := fun _ => spaceMapCreate 0 0 0
  msDefermap := fun _ => spaceMapCreate 0 0 0
  msMap := sm
  msDeferspace := 0
  msActive := false
  msLoad := none
  msObj := obj
  msDirty := fun _ => false

/-- The main map. A read error of the load under `metaslab_debug` is a panic. -/
def initMap (zfsRecover metaslabDebug : Bool) (smoObject : ℕ) (smo : SpaceMapObj) (obj : Object)
    (sm : SpaceMap) : Option SpaceMap :=
  if metaslabDebug ∧ smoObject ≠ 0 then do
    let (sm, error) ← spaceMapLoad zfsRecover true .free smo obj (fun _ => 0) sm
    verify (error = 0)
    some sm
  else some sm

def metaslabInit (order : SpaceMap → List ℕ)
    (smoObject : ℕ) (smo : SpaceMapObj) (obj : Object) (start size shift txg : ℕ) :
    Option Metaslab := do
  let sm ← initMap zfsRecover metaslabDebug smoObject smo obj (spaceMapCreate start size shift)
  let ms := metaslabZero smo obj sm
  let ms ← (if txg ≤ txgInitial then
      metaslabSyncDone zfsRecover metaslabDebug fragmented 0 order ms
    else some ms)
  some (if txg ≠ 0 then ms.vdevDirty txg else ms)

end Osol.Zfs
