import Osol.Lib.Checked
import Osol.Avl.Seq

/-!
# In-core space maps

The functions of `space_map.c` on the segment tree of a space map, and the part of
the block pickers of `metaslab.c` that maintains a second tree over the same
segments. Segments live at addresses, since both trees hold one node and the code
changes `ss_start` and `ss_end` of a node in place. A map owns its segments:
`smSeg` is their memory and `smNext` the next address `kmem_alloc` returns.
-/

namespace Osol.Zfs

open Osol.Lib Osol.Avl

structure SpaceSeg where
  ssStart : ℕ
  ssEnd : ℕ
  deriving DecidableEq

/-- `space_map_t`, with the memory of its segments. -/
structure SpaceMap where
  smRoot : List ℕ
  smPpRoot : Option (List ℕ)
  smSeg : ℕ → SpaceSeg
  smNext : ℕ
  smSpace : ℕ
  smStart : ℕ
  smSize : ℕ
  smShift : ℕ
  smLoaded : Bool
  smLoading : Bool

/-- `space_map_seg_compare`: overlapping segments are equal. -/
def spaceMapSegCompare (s1 s2 : SpaceSeg) : Ordering :=
  if s1.ssStart < s2.ssStart then
    if s1.ssEnd > s2.ssStart then .eq else .lt
  else if s1.ssStart > s2.ssStart then
    if s1.ssStart < s2.ssEnd then .eq else .gt
  else .eq

/-- `metaslab_segsize_compare`: by size, then by start. -/
def metaslabSegsizeCompare (s1 s2 : SpaceSeg) : Ordering :=
  let ssSize1 := usub s1.ssEnd s1.ssStart
  let ssSize2 := usub s2.ssEnd s2.ssStart
  if ssSize1 < ssSize2 then .lt
  else if ssSize1 > ssSize2 then .gt
  else if s1.ssStart < s2.ssStart then .lt
  else if s1.ssStart > s2.ssStart then .gt
  else .eq

def spaceMapCreate (start size shift : ℕ) : SpaceMap where
  smRoot := []
  smPpRoot := none
  smSeg := fun _ => ⟨0, 0⟩
  smNext := 0
  smSpace := 0
  smStart := start
  smSize := size
  smShift := shift
  smLoaded := false
  smLoading := false

namespace SpaceMap

/-- Store a segment at an address. -/
def setSeg (sm : SpaceMap) (a : ℕ) (ss : SpaceSeg) : SpaceMap :=
  { sm with smSeg := Function.update sm.smSeg a ss }

def ppRemove (sm : SpaceMap) (a : ℕ) : SpaceMap :=
  { sm with smPpRoot := sm.smPpRoot.map (avlRemove · a) }

def ppAdd (sm : SpaceMap) (a : ℕ) : Option SpaceMap :=
  match sm.smPpRoot with
  | none => some sm
  | some pp => do
    let pp' ← avlAdd (fun i j => metaslabSegsizeCompare (sm.smSeg i) (sm.smSeg j)) pp a
    some { sm with smPpRoot := some pp' }

/-- `avl_find(&sm->sm_root, &ssearch, &where)`. -/
def findSeg (sm : SpaceMap) (start stop : ℕ) : Option ℕ × ℕ :=
  avlFind (fun i => spaceMapSegCompare ⟨start, stop⟩ (sm.smSeg i)) sm.smRoot

/-- The segments in tree order. -/
def segs (sm : SpaceMap) : List SpaceSeg := sm.smRoot.map sm.smSeg

end SpaceMap

variable (zfsRecover : Bool)

/-- `zfs_panic_recover`: a warning if `zfs_recover` is set, a panic otherwise. -/
def zfsPanicRecover (sm : SpaceMap) : Option SpaceMap :=
  if zfsRecover then some sm else none

variable (sm : SpaceMap)

/-- The branch `merge_before && merge_after` of `space_map_add`: `ss_before` goes,
`ss_after` takes its start. -/
def mergeBoth (ssBefore ssAfter : ℕ) : SpaceMap :=
  let sm := { sm with smRoot := avlRemove sm.smRoot ssBefore }
  let sm := (sm.ppRemove ssBefore).ppRemove ssAfter
  sm.setSeg ssAfter { sm.smSeg ssAfter with ssStart := (sm.smSeg ssBefore).ssStart }

/-- The branch `merge_before`: `ss_before` grows to the end of the range. -/
def mergeBefore (ssBefore stop : ℕ) : SpaceMap :=
  (sm.setSeg ssBefore { sm.smSeg ssBefore with ssEnd := stop }).ppRemove ssBefore

/-- The branch `merge_after`: `ss_after` grows to the start of the range. -/
def mergeAfter (ssAfter start : ℕ) : SpaceMap :=
  (sm.setSeg ssAfter { sm.smSeg ssAfter with ssStart := start }).ppRemove ssAfter

/-- The last branch: a new segment, at the address `smNext`. -/
def insertNew (gap start stop : ℕ) : SpaceMap :=
  let sm' := { sm with smNext := sm.smNext + 1 }.setSeg sm.smNext ⟨start, stop⟩
  { sm' with smRoot := avlInsert sm.smRoot sm.smNext gap }

/-- The tree surgery of `space_map_add` at a free gap. Returns with the map the
segment that is then added to the picker tree. -/
def spaceMapAddAt (gap start stop : ℕ) : SpaceMap × ℕ :=
  let before :=
    (avlNearest sm.smRoot gap .before).filter fun b => (sm.smSeg b).ssEnd = start
  let after :=
    (avlNearest sm.smRoot gap .after).filter fun a => (sm.smSeg a).ssStart = stop
  match before, after with
  | some b, some a => (mergeBoth sm b a, a)
  | some b, none => (mergeBefore sm b stop, b)
  | none, some a => (mergeAfter sm a start, a)
  | none, none => (insertNew sm gap start stop, sm.smNext)

def spaceMapAddChecked (sm : SpaceMap) (start stop size : ℕ) : Option SpaceMap :=
  match sm.findSeg start stop with
  | (some ss, _) =>
    if (sm.smSeg ss).ssStart ≤ start ∧ stop ≤ (sm.smSeg ss).ssEnd then
      zfsPanicRecover zfsRecover sm
    else none
  | (none, gap) => do
    let sm' ← (spaceMapAddAt sm gap start stop).1.ppAdd (spaceMapAddAt sm gap start stop).2
    some { sm' with smSpace := uadd sm'.smSpace size }

def spaceMapAdd (sm : SpaceMap) (start size : ℕ) : Option SpaceMap := do
  let stop := uadd start size
  verify (size ≠ 0)
  verify (sm.smStart ≤ start)
  verify (stop ≤ uadd sm.smStart sm.smSize)
  verify (uadd sm.smSpace size ≤ sm.smSize)
  verify (p2phase start (2 ^ sm.smShift) = 0)
  verify (p2phase size (2 ^ sm.smShift) = 0)
  spaceMapAddChecked zfsRecover sm start stop size

/-- The branch `left_over && right_over` of `space_map_remove`: what is right of the
range becomes a segment of its own. -/
def splitSeg (ss start stop : ℕ) : Option SpaceMap := do
  let newseg := sm.smNext
  let sm := { sm with smNext := newseg + 1 }.setSeg newseg ⟨stop, (sm.smSeg ss).ssEnd⟩
  let sm := sm.setSeg ss { sm.smSeg ss with ssEnd := start }
  let sm := { sm with smRoot := avlInsertHere sm.smRoot newseg ss .after }
  let sm ← sm.ppAdd newseg
  sm.ppAdd ss

/-- The tree surgery of `space_map_remove` on the segment that holds the range:
split it, cut it at one side, or drop it. -/
def spaceMapRemoveAt (ss start stop : ℕ) : Option SpaceMap :=
  let leftOver := (sm.smSeg ss).ssStart ≠ start
  let rightOver := (sm.smSeg ss).ssEnd ≠ stop
  let sm := sm.ppRemove ss
  if leftOver ∧ rightOver then splitSeg sm ss start stop
  else if leftOver then (sm.setSeg ss { sm.smSeg ss with ssEnd := start }).ppAdd ss
  else if rightOver then (sm.setSeg ss { sm.smSeg ss with ssStart := stop }).ppAdd ss
  else some { sm with smRoot := avlRemove sm.smRoot ss }

def spaceMapRemoveChecked (sm : SpaceMap) (start stop size : ℕ) : Option SpaceMap :=
  match (sm.findSeg start stop).1 with
  | none => zfsPanicRecover zfsRecover sm
  | some ss => do
    verify ((sm.smSeg ss).ssStart ≤ start)
    verify (stop ≤ (sm.smSeg ss).ssEnd)
    verify (usub sm.smSpace size ≤ sm.smSize)
    let sm' ← spaceMapRemoveAt sm ss start stop
    some { sm' with smSpace := usub sm'.smSpace size }

def spaceMapRemove (sm : SpaceMap) (start size : ℕ) : Option SpaceMap := do
  let stop := uadd start size
  verify (size ≠ 0)
  verify (p2phase start (2 ^ sm.smShift) = 0)
  verify (p2phase size (2 ^ sm.smShift) = 0)
  spaceMapRemoveChecked zfsRecover sm start stop size

def spaceMapContains (start size : ℕ) : Option Bool := do
  let stop := uadd start size
  verify (size ≠ 0)
  verify (p2phase start (2 ^ sm.smShift) = 0)
  verify (p2phase size (2 ^ sm.smShift) = 0)
  match (sm.findSeg start stop).1 with
  | none => some false
  | some ss => some (decide ((sm.smSeg ss).ssStart ≤ start ∧ stop ≤ (sm.smSeg ss).ssEnd))

/-- Call `func(mdest, ss_start, ss_end - ss_start)` for the segments at some addresses. -/
def forSegs {D : Type} (seg : ℕ → SpaceSeg) (func : D → ℕ → ℕ → Option D) (order : List ℕ)
    (mdest : D) : Option D :=
  order.foldlM
    (fun d a => func d (seg a).ssStart (usub (seg a).ssEnd (seg a).ssStart)) mdest

/-- `space_map_vacate`: `order` is the order in which `avl_destroy_nodes` hands out
the nodes, `func` is `none` for a null pointer. -/
def spaceMapVacate {D : Type} (order : List ℕ) (func : Option (D → ℕ → ℕ → Option D))
    (sm : SpaceMap) (mdest : D) : Option (SpaceMap × D) := do
  let mdest ← match func with
    | none => some mdest
    | some f => forSegs sm.smSeg f order mdest
  some ({ sm with smRoot := [], smSpace := 0 }, mdest)

def spaceMapWalk {D : Type} (func : D → ℕ → ℕ → Option D) (sm : SpaceMap) (mdest : D) : Option D :=
  forSegs sm.smSeg func sm.smRoot mdest

def metaslabPpLoad : Option SpaceMap :=
  sm.smRoot.foldlM (fun sm a => sm.ppAdd a) { sm with smPpRoot := some [] }

def metaslabPpUnload : SpaceMap := { sm with smPpRoot := none }

end Osol.Zfs
