import Osol.Lib.Checked

/-!
# Record locks

The active locks of a graph stand in one list, those of a vnode side by side and sorted by
their start; `v_filocks` of a vnode points to the first of its locks. A request is executed
by comparing it with the active locks of its owner: where they overlap, or touch and are of
the same type, the lock is taken out, and what the request does not replace of it is put back
as one or two new locks.

Executing a request also recomputes the dependencies of sleeping requests and wakes some of
them up. That touches neither the list nor the ranges, and is left out here.
-/

namespace Osol.Flock

open Osol.Lib Function

/-! ## Descriptors -/

/-- `F_RDLCK`, `F_WRLCK`, `F_UNLCK`. -/
inductive LockType where
  | rdlck
  | wrlck
  | unlck
  deriving DecidableEq

/-- `lock_descriptor_t`. The address of the descriptor is `id`. -/
structure Lock where
  id : ℕ
  lVnode : ℕ
  lPid : ℤ
  lSysid : ℤ
  lType : LockType
  lStart : ℕ
  lEnd : ℕ
  /-- `IO_LOCK` in `l_state`. -/
  ioLock : Bool
  deriving DecidableEq

def Lock.withRange (x : Lock) (start lend : ℕ) : Lock := { x with lStart := start, lEnd := lend }

def SameOwner (l1 l2 : Lock) : Prop := l1.lPid = l2.lPid ∧ l1.lSysid = l2.lSysid

instance (l1 l2 : Lock) : Decidable (SameOwner l1 l2) := inferInstanceAs (Decidable (_ ∧ _))

def Overlap (l1 l2 : Lock) : Prop :=
  (l1.lStart ≤ l2.lStart ∧ l2.lStart ≤ l1.lEnd) ∨ (l2.lStart ≤ l1.lStart ∧ l1.lStart ≤ l2.lEnd)

instance (l1 l2 : Lock) : Decidable (Overlap l1 l2) := inferInstanceAs (Decidable (_ ∨ _))

def Blocks (l1 l2 : Lock) : Prop :=
  ¬ SameOwner l1 l2 ∧ (l1.lType = .wrlck ∨ l2.lType = .wrlck) ∧ Overlap l1 l2

instance (l1 l2 : Lock) : Decidable (Blocks l1 l2) := inferInstanceAs (Decidable (_ ∧ _))

/-! ## The active list -/

/-- The active locks of a graph. A vnode without locks has no `v_filocks`; descriptors are
numbered as they are allocated. -/
structure Graph where
  active : List Lock
  filocks : ℕ → Option ℕ
  nextId : ℕ

def Graph.empty : Graph := ⟨[], fun _ => none, 0⟩

/-- The list from the descriptor with this address on. -/
def fromId (id : ℕ) (l : List Lock) : List Lock := l.dropWhile fun x => x.id ≠ id

def beforeId (id : ℕ) (l : List Lock) : List Lock := l.takeWhile fun x => x.id ≠ id

def skips (new x : Lock) : Bool := x.lVnode = new.lVnode && x.lStart < new.lStart

def flkInsertActiveLock (g : Graph) (new : Lock) : Graph :=
  match g.filocks new.lVnode with
  | none =>
    { g with
      active := g.active ++ [new]
      filocks := update g.filocks new.lVnode (some new.id) }
  | some first =>
    let list := fromId first g.active
    { g with
      active := beforeId first g.active ++ list.takeWhile (skips new) ++
        new :: list.dropWhile (skips new)
      filocks :=
        if ∀ firstLock ∈ list.head?, new.lStart ≤ firstLock.lStart then
          update g.filocks new.lVnode (some new.id)
        else g.filocks }

/-- The address of the first lock, if it is one of the vnode. -/
def firstOf (vp : ℕ) (l : List Lock) : Option ℕ :=
  match l with
  | [] => none
  | x :: _ => if x.lVnode = vp then some x.id else none

def flkDeleteActiveLock (g : Graph) (lock : Lock) : Graph :=
  { g with
    active := beforeId lock.id g.active ++ (fromId lock.id g.active).tail
    filocks :=
      if g.filocks lock.lVnode = some lock.id then
        update g.filocks lock.lVnode
          (firstOf lock.lVnode (fromId lock.id g.active).tail)
      else g.filocks }

/-! ## `flk_relation` -/

inductive LockEffect where
  | unlock
  | downgrade
  | upgrade
  | staySame
  deriving DecidableEq

def lockEffect (lock request : Lock) : LockEffect :=
  if request.lType = .unlck then .unlock
  else if request.lType = .rdlck ∧ lock.lType = .wrlck then .downgrade
  else if request.lType = .wrlck ∧ lock.lType = .rdlck then .upgrade
  else .staySame

/-- What becomes of a lock and a request of one owner. -/
inductive Relation where
  /-- They have nothing to do with each other; whether the search is over. -/
  | apart (done : Bool)
  /-- The request takes the lock's place, with this range. -/
  | absorb (start lend : ℕ)
  /-- These ranges are left of the lock. -/
  | split (pieces : List (ℕ × ℕ))
  /-- The lock is unlocked as it is. -/
  | remove
  deriving DecidableEq

def relate (lock request : Lock) : Relation :=
  let same := lockEffect lock request = .staySame
  if lock.lEnd < request.lStart then
    if lock.lEnd = usub request.lStart 1 ∧ same then .absorb lock.lStart request.lEnd
    else .apart false
  else if request.lEnd < lock.lStart then
    if request.lEnd = usub lock.lStart 1 ∧ same then .absorb request.lStart lock.lEnd
    else .apart true
  else if request.lEnd < lock.lEnd then
    if lock.lStart < request.lStart then
      if same then .absorb lock.lStart lock.lEnd
      else .split [(lock.lStart, usub request.lStart 1), (uadd request.lEnd 1, lock.lEnd)]
    else if request.lStart < lock.lStart then
      if same then .absorb request.lStart lock.lEnd
      else .split [(uadd request.lEnd 1, lock.lEnd)]
    else
      if same then .absorb lock.lStart lock.lEnd
      else .split [(uadd request.lEnd 1, lock.lEnd)]
  else if lock.lEnd < request.lEnd then
    if lock.lStart < request.lStart then
      if same then .absorb lock.lStart request.lEnd
      else .split [(lock.lStart, usub request.lStart 1)]
    else .absorb request.lStart request.lEnd
  else
    if lock.lStart < request.lStart then
      if same then .absorb lock.lStart request.lEnd
      else .split [(lock.lStart, usub request.lStart 1)]
    else if request.lStart < lock.lStart then .absorb request.lStart request.lEnd
    else if lockEffect lock request ≠ .unlock then .absorb request.lStart request.lEnd
    else .remove

/-- A new lock for a piece of a lock: `COPY`, with its own range. -/
def pieceOf (lock : Lock) (id : ℕ) (a : ℕ × ℕ) : Lock :=
  { lock.withRange a.1 a.2 with id := id }

def insertPieces (lock : Lock) : List (ℕ × ℕ) → Graph → Graph
  | [], g => g
  | a :: pieces, g =>
    insertPieces lock pieces
      (flkInsertActiveLock { g with nextId := g.nextId + 1 } (pieceOf lock g.nextId a))

/-- `flk_relation`, with the request as it is left and whether the search is over. -/
def flkRelation (g : Graph) (lock request : Lock) : Graph × Lock × Bool :=
  match relate lock request with
  | .apart done => (g, request, done)
  | .absorb start lend =>
    (flkDeleteActiveLock g lock, request.withRange start lend, false)
  | .split pieces => (insertPieces lock pieces (flkDeleteActiveLock g lock), request, false)
  | .remove => (flkDeleteActiveLock g lock, request, true)

/-! ## `flk_execute_request` -/

/-- The loop over the active locks of the vnode, from the descriptor `cur` on, at most `n`
times. The next descriptor is taken before the list is changed. -/
def searchLoop : ℕ → Graph → ℕ → Lock → Option (Graph × Lock)
  | 0, _, _, _ => none
  | n + 1, g, cur, request =>
    match fromId cur g.active with
    | [] => none
    | lock :: rest =>
      let (g', request', done) :=
        if SameOwner request lock then flkRelation g lock request else (g, request, false)
      match rest with
      | [] => some (g', request')
      | lock1 :: _ =>
        if lock1.lVnode = request.lVnode ∧ !done then searchLoop n g' lock1.id request'
        else some (g', request')

def flkExecuteRequest (g : Graph) (request : Lock) : Option Graph :=
  if request.ioLock then some g
  else
    match g.filocks request.lVnode with
    | none => if request.lType = .unlck then some g else some (flkInsertActiveLock g request)
    | some first => do
      let (g, request) ← searchLoop (3 * g.active.length) g first request
      if request.lType = .unlck then some g else some (flkInsertActiveLock g request)

end Osol.Flock
