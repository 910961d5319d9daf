import Osol.Zfs.SpaceMap.Basic

/-!
# The on-disk log of a space map

A space map is kept on disk as an object of 64-bit words: runs of allocated or freed
units, and debug words that a reader skips. `space_map_sync` appends a map to the log
through a buffer of at most one block; `space_map_load` reads the log block by block
and replays it. The object is addressed by word, since every offset and size the two
functions pass to the DMU is a multiple of eight.
-/

namespace Osol.Zfs

open Osol.Lib

/-- `SM_ALLOC` and `SM_FREE`. -/
inductive MapType where
  | alloc
  | free
  deriving DecidableEq

def MapType.code : MapType → ℕ
  | alloc => 0
  | free => 1

/-! ## Words -/

def bf64Decode (x low len : ℕ) : ℕ := p2phase (x >>> low) (2 ^ len)

def bf64Encode (x low len : ℕ) : ℕ := p2phase x (2 ^ len) <<< low

variable (x : ℕ)

def smRunDecode : ℕ := bf64Decode x 0 15 + 1
def smRunEncode : ℕ := bf64Encode (x - 1) 0 15
def smTypeDecode : ℕ := bf64Decode x 15 1
def smTypeEncode : ℕ := bf64Encode x 15 1
def smOffsetDecode : ℕ := bf64Decode x 16 47
def smOffsetEncode : ℕ := bf64Encode x 16 47
def smDebugDecode : ℕ := bf64Decode x 63 1
def smDebugEncode : ℕ := bf64Encode x 63 1
def smDebugActionEncode : ℕ := bf64Encode x 60 3
def smDebugSyncpassEncode : ℕ := bf64Encode x 50 10
def smDebugTxgEncode : ℕ := bf64Encode x 0 50

def smRunMax : ℕ := smRunDecode (2 ^ 64 - 1)

variable (maptype : MapType)

def runWord (start runLen : ℕ) : ℕ :=
  smOffsetEncode start ||| smTypeEncode maptype.code ||| smRunEncode runLen

/-- The word that opens what one call of `space_map_sync` writes. -/
def debugWord (syncPass txg : ℕ) : ℕ :=
  smDebugEncode 1 ||| smDebugActionEncode maptype.code ||| smDebugSyncpassEncode syncPass |||
    smDebugTxgEncode txg

/-! ## The object -/

structure SpaceMapObj where
  smoObjsize : ℕ
  smoAlloc : ℕ
  deriving DecidableEq

/-- The object that holds a log. `written` counts the bytes of all writes to it. -/
structure Object where
  word : ℕ → ℕ
  written : ℕ

def dmuWrite (o : Object) (offset : ℕ) (buf : List ℕ) : Object where
  word := fun k =>
    if offset / 8 ≤ k ∧ k < offset / 8 + buf.length then buf.getD (k - offset / 8) 0 else o.word k
  written := o.written + buf.length * 8

def dmuRead (o : Object) (offset size : ℕ) : List ℕ :=
  (List.range (size / 8)).map fun k => o.word (offset / 8 + k)

/-- `1 << SPACE_MAP_BLOCKSHIFT`. -/
def blockSize : ℕ := 2 ^ 12

/-! ## `space_map_sync` -/

/-- The loop state of `space_map_sync`: the words in the buffer, and what was written. -/
structure SyncState where
  buf : List ℕ
  smo : SpaceMapObj
  obj : Object

/-- Write the buffer out and start over. -/
def SyncState.flush (st : SyncState) : SyncState where
  buf := []
  smo := { st.smo with smoObjsize := st.smo.smoObjsize + st.buf.length * 8 }
  obj := dmuWrite st.obj st.smo.smoObjsize st.buf

/-- Put one word into a buffer of `cap` words. -/
def SyncState.put (cap : ℕ) (st : SyncState) (w : ℕ) : SyncState :=
  let st := if st.buf.length = cap then st.flush else st
  { st with buf := st.buf ++ [w] }

/-- The loop over the runs of one segment, in units. Every round takes at least one
unit off `size`, so `fuel = size` is enough. -/
def syncRuns (maptype : MapType) (cap : ℕ) : ℕ → ℕ → ℕ → SyncState → SyncState
  | 0, _, _, st => st
  | fuel + 1, start, size, st =>
    if size = 0 then st
    else
      let runLen := min size smRunMax
      syncRuns maptype cap fuel (start + runLen) (size - runLen)
        (st.put cap (runWord maptype start runLen))

/-- One round of the loop over the segments: `(sm_space, state)`. -/
def syncSeg (cap : ℕ) (sm : SpaceMap) (acc : ℕ × SyncState) (a : ℕ) : ℕ × SyncState :=
  let ss := sm.smSeg a
  let size := usub ss.ssEnd ss.ssStart
  let start := usub ss.ssStart sm.smStart >>> sm.smShift
  let units := size >>> sm.smShift
  (usub acc.1 size, syncRuns maptype cap units start units acc.2)

def allocAfter (smo : SpaceMapObj) (sm : SpaceMap) : ℕ :=
  match maptype with
  | .alloc => uadd smo.smoAlloc sm.smSpace
  | .free => usub smo.smoAlloc sm.smSpace

/-- `space_map_sync`: `order` is the order in which `avl_destroy_nodes` hands out the
nodes. Returns the emptied map, the header and the object. -/
def spaceMapSync (syncPass txg : ℕ) (order : List ℕ) (sm : SpaceMap)
    (smo : SpaceMapObj) (obj : Object) : Option (SpaceMap × SpaceMapObj × Object) :=
  if sm.smSpace = 0 then some (sm, smo, obj)
  else do
    let smo := { smo with smoAlloc := allocAfter maptype smo sm }
    let cap := min ((8 + sm.smRoot.length) * 8) blockSize / 8
    let st : SyncState := ⟨[debugWord maptype syncPass txg], smo, obj⟩
    let (space, st) := order.foldl (syncSeg maptype cap sm) (sm.smSpace, st)
    let st := if st.buf = [] then st else st.flush
    verify (space = 0)
    some ({ sm with smRoot := [], smSpace := space }, st.smo, st.obj)

def spaceMapTruncate (obj : Object) : SpaceMapObj × Object :=
  (⟨0, 0⟩, { obj with word := fun _ => 0 })

/-! ## `space_map_load` -/

def SpaceMap.withFlags (sm : SpaceMap) (loaded loading : Bool) : SpaceMap :=
  { sm with smLoaded := loaded, smLoading := loading }

variable (zfsRecover : Bool)

/-- Replay one word. -/
def loadEntry (maptype : MapType) (sm : SpaceMap) (e : ℕ) : Option SpaceMap :=
  if smDebugDecode e ≠ 0 then some sm
  else
    let start := uadd (smOffsetDecode e * 2 ^ sm.smShift % 2 ^ 64) sm.smStart
    let size := smRunDecode e * 2 ^ sm.smShift % 2 ^ 64
    if smTypeDecode e = maptype.code then spaceMapAdd zfsRecover sm start size
    else spaceMapRemove zfsRecover sm start size

/-- The part of `space_map_load` before the first read. Returns the space the log
must end with. -/
def loadBegin (maptype : MapType) (smo : SpaceMapObj) (sm : SpaceMap) : Option (SpaceMap × ℕ) := do
  let sm := sm.withFlags sm.smLoaded true
  verify (sm.smSpace = 0)
  match maptype with
  | .free => do
    let sm ← spaceMapAdd zfsRecover sm sm.smStart sm.smSize
    some (sm, usub sm.smSize smo.smoAlloc)
  | .alloc => some (sm, smo.smoAlloc)

/-- One round of the loop of `space_map_load`: read the block at `offset` and replay it. -/
def loadBlock (maptype : MapType) (obj : Object) (stop offset : ℕ)
    (sm : SpaceMap) : Option SpaceMap := do
  let size := min (stop - offset) blockSize
  verify (p2phase size 8 = 0)
  verify (size ≠ 0)
  (dmuRead obj offset size).foldlM (loadEntry zfsRecover maptype) sm

/-- The end of a load without errors: `ops` says whether a picker is attached. -/
def loadEnd (ops : Bool) (space : ℕ) (sm : SpaceMap) : Option SpaceMap := do
  verify (sm.smSpace = space)
  let sm := sm.withFlags true sm.smLoading
  let sm ← if ops then metaslabPpLoad sm else some sm
  some (sm.withFlags sm.smLoaded false)

/-- The end of a load after a read error. -/
def loadAbort (sm : SpaceMap) : SpaceMap :=
  { sm with smRoot := [], smSpace := 0, smLoading := false }

/-- The loop of `space_map_load`: `readErr offset` is the error of the read there, zero
for none. -/
def loadLoop (zfsRecover : Bool) (maptype : MapType) (obj : Object) (readErr : ℕ → ℕ)
    (stop : ℕ) : ℕ → ℕ → SpaceMap → Option (SpaceMap × ℕ)
  | 0, _, sm => some (sm, 0)
  | fuel + 1, offset, sm =>
    if offset < stop then
      if readErr offset = 0 then do
        let sm ← loadBlock zfsRecover maptype obj stop offset sm
        loadLoop zfsRecover maptype obj readErr stop fuel (offset + blockSize) sm
      else some (sm, readErr offset)
    else some (sm, 0)

def spaceMapLoad (zfsRecover ops : Bool) (maptype : MapType) (smo : SpaceMapObj) (obj : Object)
    (readErr : ℕ → ℕ) (sm : SpaceMap) : Option (SpaceMap × ℕ) := do
  let (sm, space) ← loadBegin zfsRecover maptype smo sm
  let (sm, error) ← loadLoop zfsRecover maptype obj readErr smo.smoObjsize
    (smo.smoObjsize / blockSize + 1) 0 sm
  if error = 0 then do
    let sm ← loadEnd ops space sm
    some (sm, 0)
  else some (loadAbort sm, error)

def spaceMapUnload (sm : SpaceMap) : SpaceMap :=
  let sm := if sm.smLoaded then metaslabPpUnload sm else sm
  { sm with smLoaded := false, smRoot := [], smSpace := 0 }

end Osol.Zfs
