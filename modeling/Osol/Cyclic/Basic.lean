import Osol.Lib.Heap

/-!
# The cyclic subsystem of a CPU

The cyclics of a CPU are in an array; a heap of indices into it has the next one to expire at
its root, and the indices that are not in use behind. Everything here runs at the high level,
where nothing interrupts it. A time does not overflow.
-/

namespace Osol.Cyc

open Osol.Lib Function

/-! ## The data -/

inductive SoftLevel where
  | low
  | lock
  deriving DecidableEq

inductive Level where
  | soft (l : SoftLevel)
  | high
  deriving DecidableEq

structure Cyclic where
  expire : ℤ
  interval : ℤ
  handler : ℕ
  arg : ℕ
  /-- A `uint32_t`. -/
  pend : ℕ
  flags : BitVec 16
  level : Level
  deriving DecidableEq

def cyfFree : BitVec 16 := 0x0001

/-- `CYF_FREE` is set. -/
def Cyclic.free (c : Cyclic) : Bool := c.flags &&& cyfFree != 0

def cyInfinity : ℤ := 2 ^ 63 - 1

def nanosec : ℤ := 1000000000

/-- `cyc_pcbuffer_t`. -/
structure PcBuffer where
  buf : ℕ → ℕ
  prodndx : ℕ
  consndx : ℕ
  sizemask : ℕ

/-- `cyc_softbuf_t`: the two indices are 0 or 1. -/
structure SoftBuf where
  hard : Bool
  soft : Bool
  buf : Bool → PcBuffer

inductive CycState where
  | online
  | offline
  | expanding
  | removing
  | suspended
  deriving DecidableEq

/-- `cyc_cpu_t`, and what was last asked of the back end. -/
structure CycCpu where
  heap : ℕ → ℕ
  cyclics : ℕ → Cyclic
  nelems : ℕ
  size : ℕ
  state : CycState
  softbuf : SoftLevel → SoftBuf
  modifyLevels : ℕ
  rpend : ℕ
  /-- The count of the semaphore `cyp_modify_wait`. -/
  modifyWait : ℕ
  /-- The back end is enabled. -/
  enabled : Bool
  /-- The time the back end was last programmed for. -/
  programmed : Option ℤ
  /-- The soft interrupts that are posted. -/
  posted : SoftLevel → Bool

namespace CycCpu

variable (cpu : CycCpu)

def root : Cyclic := cpu.cyclics (cpu.heap 0)

def setCyclic (ndx : ℕ) (c : Cyclic) : CycCpu :=
  { cpu with cyclics := update cpu.cyclics ndx c }

def reprogram (exp : ℤ) : CycCpu := { cpu with programmed := some exp }

def softint (l : SoftLevel) : CycCpu := { cpu with posted := update cpu.posted l true }

end CycCpu

/-! ## The heap -/

variable (cpu : CycCpu)

def cyclicUpheap (ndx : ℕ) : CycCpu × Bool :=
  let (heap, reached) := siftUp (fun c => (cpu.cyclics c).expire) ndx cpu.heap ndx
  ({ cpu with heap := heap }, reached)

def cyclicDownheap (ndx : ℕ) : CycCpu :=
  { cpu with
    heap := siftDown (fun c => (cpu.cyclics c).expire) cpu.nelems cpu.nelems cpu.heap ndx }

/-! ## Cross calls -/

structure Handler where
  func : ℕ
  arg : ℕ
  level : Level

/-- The first index that is not in use is taken; with the first cyclic the back end is
enabled. -/
def append (c : Cyclic) : CycCpu :=
  { cpu.setCyclic (cpu.heap cpu.nelems) c with
    nelems := cpu.nelems + 1
    enabled := cpu.enabled || cpu.nelems == 0 }

/-- The cyclic finds its place; if that is the root, the back end is programmed for it. -/
def insert (c : Cyclic) : CycCpu :=
  let (cpu, reached) := cyclicUpheap (append cpu c) cpu.nelems
  if reached then cpu.reprogram c.expire else cpu

/-- `cyclic_add_xcall` at the time `now`; the index comes back. -/
def cyclicAddXcall (hdlr : Handler) (cytWhen cytInterval : ℤ) (flags : BitVec 16)
    (now : ℤ) : CycCpu × ℕ :=
  let ndx := cpu.heap cpu.nelems
  (insert cpu { cpu.cyclics ndx with
    interval := cytInterval
    expire := if cytWhen = 0 then (now.tdiv cytInterval + 1) * cytInterval else cytWhen
    handler := hdlr.func
    arg := hdlr.arg
    level := hdlr.level
    flags := flags }, ndx)

/-- What `cyclic_remove_xcall` leaves in its argument. -/
structure Removed where
  cytWhen : ℤ
  cytInterval : ℤ
  /-- `CY_WAIT`. -/
  wait : Bool

/-- The entry at `i` gives way to the last one, which finds its place. The flag says that the
root changed. -/
def refill (i : ℕ) : CycCpu × Bool :=
  let last := cpu.heap i
  if i = 0 then (cyclicDownheap cpu 0, true)
  else
    let (cpu, reached) := cyclicUpheap cpu i
    (if reached = false ∧ cpu.heap i = last then cyclicDownheap cpu i else cpu, reached)

/-- One entry less; without any the back end is disabled. -/
def dropLast : CycCpu :=
  { cpu with nelems := cpu.nelems - 1, enabled := cpu.enabled && cpu.nelems - 1 != 0 }

/-- The part of `cyclic_remove_xcall` that takes the entry at `i` out of the heap. -/
def heapRemove (ndx i : ℕ) : CycCpu :=
  let cpu := dropLast cpu
  if i = cpu.nelems then cpu
  else
    let last := cpu.heap cpu.nelems
    let (cpu, changed) := refill
      { cpu with heap := update (update cpu.heap i last) cpu.nelems ndx } i
    if changed then cpu.reprogram cpu.root.expire else cpu

/-- The cyclic is marked free. A pending count goes to `cyp_rpend`. -/
def release (ndx : ℕ) : CycCpu :=
  let cyclic := cpu.cyclics ndx
  let cpu := { cpu with rpend := if cyclic.pend ≠ 0 then cyclic.pend else cpu.rpend }
  cpu.setCyclic ndx { cyclic with pend := 0, flags := cyfFree }

/-- `cyclic_remove_xcall`. A cyclic that has something pending is not removed for a caller that
does not wait. -/
def cyclicRemoveXcall (ndx : ℕ) (wait : Bool) : Option (CycCpu × Removed) :=
  let cyclic := cpu.cyclics ndx
  let out := { cytWhen := cyclic.expire, cytInterval := cyclic.interval, wait := wait }
  if cyclic.pend ≠ 0 ∧ wait = false then some (cpu, { out with wait := true })
  else
    ((List.range cpu.nelems).find? fun i => cpu.heap i = ndx).map fun i =>
      (heapRemove (release cpu ndx) ndx i, out)

/-- The entry at `i` finds its place when its expiration was `oexpire` and is `expire`. The flag
says that the root changed. -/
def reheap (i : ℕ) (oexpire expire : ℤ) : CycCpu × Bool :=
  if oexpire < expire then (cyclicDownheap cpu i, decide (i = 0))
  else if 0 < i then cyclicUpheap cpu i
  else (cpu, true)

/-- The part of `cyclic_reprogram_cyclic` for a cyclic found at `i`. -/
def reprogramAt (ndx : ℕ) (expire : ℤ) (i : ℕ) : CycCpu :=
  let cyclic := cpu.cyclics ndx
  let (cpu, reprog) :=
    reheap (cpu.setCyclic ndx { cyclic with expire := expire }) i cyclic.expire expire
  if reprog ∧ cpu.state ≠ .suspended then cpu.reprogram cpu.root.expire else cpu

/-- `cyclic_reprogram_cyclic`. The search is from the bottom of the heap. -/
def cyclicReprogramCyclic (ndx : ℕ) (expire : ℤ) : Option CycCpu :=
  ((List.range cpu.nelems).reverse.find? fun i => cpu.heap i = ndx).map (reprogramAt cpu ndx expire)

/-- An entry of a new array. -/
def freeCyclic : Cyclic where
  expire := 0
  interval := 0
  handler := 0
  arg := 0
  pend := 0
  flags := cyfFree
  level := .soft .low

/-- `cyclic_expand_xcall`. The old array is kept by the caller, with its `cy_pend` cleared. -/
def cyclicExpandXcall : CycCpu :=
  let cpu := { cpu with
    heap := fun i => if i < cpu.size then cpu.heap i else i
    cyclics := fun i => if i < cpu.size then cpu.cyclics i else freeCyclic
    size := 2 * cpu.size
    softbuf := fun l => { cpu.softbuf l with hard := !(cpu.softbuf l).hard } }
  cpu.softint .lock

/-! ## Expiration -/

/-- `cyclic_expire` of a cyclic that has a soft level: one that has nothing pending is
enqueued. -/
def expireSoft (l : SoftLevel) (ndx : ℕ) : CycCpu :=
  let cyclic := cpu.cyclics ndx
  if cyclic.pend = 0 then
    let softbuf := cpu.softbuf l
    let pc := softbuf.buf softbuf.hard
    let pc := { pc with
      buf := update pc.buf (pc.prodndx &&& pc.sizemask) ndx
      prodndx := pc.prodndx + 1 }
    let softbuf := { softbuf with buf := update softbuf.buf softbuf.hard pc }
    let cpu := { cpu with softbuf := update cpu.softbuf l softbuf }
    (cpu.setCyclic ndx { cyclic with pend := 1 }).softint l
  else
    -- a count that would wrap stays
    let pend := (cyclic.pend + 1) % 2 ^ 32
    (cpu.setCyclic ndx { cyclic with pend := if pend = 0 then 2 ^ 32 - 1 else pend }).softint l

/-- The calls of `cyclic_reprogram` that a handler makes for cyclics of this CPU. -/
def callHandler (calls : List (ℕ × ℤ)) : Option CycCpu :=
  calls.foldlM (fun cpu call => cyclicReprogramCyclic cpu call.1 call.2) cpu

def cyclicExpire (ndx : ℕ) (calls : List (ℕ × ℤ)) : Option CycCpu :=
  match (cpu.cyclics ndx).level with
  | .high => callHandler cpu calls
  | .soft l => some (expireSoft cpu l ndx)

/-- The expiration after `exp`. One in the distant past is moved to the next boundary of the
interval. -/
def nextExpire (now exp interval : ℤ) : ℤ :=
  let exp := if interval = cyInfinity then cyInfinity else exp + interval
  if now - exp > nanosec then exp + ((now - exp).tdiv interval + 1) * interval else exp

/-- The cyclic that expired at `exp`, and was at the root, gets its next expiration, unless its
handler reprogrammed it. -/
def advance (ndx : ℕ) (now exp : ℤ) : CycCpu :=
  let cyclic := cpu.cyclics ndx
  if cyclic.expire ≠ exp then cpu
  else
    cyclicDownheap
      (cpu.setCyclic ndx { cyclic with expire := nextExpire now exp cyclic.interval }) 0

/-- A turn of the loop of `cyclic_fire`, with the root due. -/
def fireRoot (now : ℤ) (calls : List (ℕ × ℤ)) : Option CycCpu :=
  (cyclicExpire cpu (cpu.heap 0) calls).map fun cpu' =>
    advance cpu' (cpu.heap 0) now cpu.root.expire

/-- What the handlers do: at the `k`-th expiration, of the cyclic `ndx`. -/
abbrev Handlers := ℕ → ℕ → List (ℕ × ℤ)

/-- The loop of `cyclic_fire` from the `k`-th expiration on, with a bound on its turns. The
expirations come back in their order, each with its time. -/
def fireLoop (hs : Handlers) (now : ℤ) : ℕ → ℕ → CycCpu → Option (List (ℕ × ℤ) × CycCpu)
  | 0, _, _ => none
  | fuel + 1, k, cpu =>
    let ndx := cpu.heap 0
    let exp := cpu.root.expire
    if now < exp then some ([], cpu.reprogram exp)
    else do
      let cpu ← fireRoot cpu now (hs k ndx)
      let (log, last) ← fireLoop hs now fuel (k + 1) cpu
      return ((ndx, exp) :: log, last)

def cyclicFire (hs : Handlers) (now : ℤ) (fuel : ℕ) (cpu : CycCpu) :
    Option (List (ℕ × ℤ) × CycCpu) :=
  if cpu.nelems = 0 then some ([], cpu) else fireLoop hs now fuel 0 cpu

/-! ## Whole runs -/

/-- The CPU after `cyclic_configure`, online. -/
def configured : CycCpu where
  heap := fun _ => 0
  cyclics := fun _ => freeCyclic
  nelems := 0
  size := 1
  state := .online
  softbuf := fun _ => ⟨false, false, fun _ => ⟨fun _ => 0, 0, 0, 0⟩⟩
  modifyLevels := 0
  rpend := 0
  modifyWait := 0
  enabled := false
  programmed := none
  posted := fun _ => false

end Osol.Cyc
