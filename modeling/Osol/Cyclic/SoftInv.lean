import Osol.Cyclic.Heap
import Osol.Cyclic.Softint
import Osol.Lib.Ring

/-!
# What holds at each access of `cyclic_softint`

The cyclics with something pending are queued, at their level, in the buffer that is being
consumed and, during a resize, in the new one. `Known` says for each access what the soft
interrupt can rely on.
-/

namespace Osol.Cyc

open Osol.Lib

/-! ## The state of a level -/

namespace Shared

variable (s : Shared) (l : SoftLevel)

def softPc : PcBuffer := (s.cpu.softbuf l).buf (s.cpu.softbuf l).soft

def hardPc : PcBuffer := (s.cpu.softbuf l).buf (s.cpu.softbuf l).hard

def Settled : Prop := (s.cpu.softbuf l).hard = (s.cpu.softbuf l).soft

instance : Decidable (s.Settled l) := inferInstanceAs (Decidable (_ = _))

/-- The removal of `c` waits for calls of its handler. -/
def Unpaid (c : ℕ) : Prop := s.modifier = .removeWait c ∧ s.cpu.modifyWait = 0

instance (c : ℕ) : Decidable (s.Unpaid c) := inferInstanceAs (Decidable (_ ∧ _))

def Pending (c : ℕ) : Prop := 0 < (s.cpu.cyclics c).pend ∨ s.Unpaid c

/-- How often. -/
def due (c : ℕ) : ℕ := if s.Unpaid c then s.cpu.rpend else (s.cpu.cyclics c).pend

end Shared

/-- The handler was called, and the call is not taken off the count yet. -/
def SoftPc.inFlight : SoftPc → Bool
  | .reread | .checkState | .reloadCyc | .reloadNdx | .cas | .rpendHandler | .rpendArg
  | .rpendRead => true
  | _ => false

/-- An entry is consumed before its index is written. -/
def SoftPc.done : SoftPc → ℕ
  | .advance => 1
  | _ => 0

section Level

variable (s : Shared) (l : SoftLevel) (t : Thread) (q q' : List ℕ)

/-- The calls that the cyclic `c` is still to get. -/
def owed (c : ℕ) : ℕ := if t.pc = .rpendCall ∧ t.ndx = c then t.count else s.due c

def ahead (c : ℕ) : ℕ := if t.pc.inFlight = true ∧ t.ndx = c then 1 else 0

/-- The queues: `q` is to be consumed first, `q'` is in the new buffer. -/
structure QueueInv (done : ℕ) : Prop where
  ring : RingHolds (s.softPc l).buf (s.softPc l).sizemask ((s.softPc l).consndx + done)
    (s.softPc l).prodndx q
  newRing : ¬ s.Settled l → RingHolds (s.hardPc l).buf (s.hardPc l).sizemask (s.hardPc l).consndx
    (s.hardPc l).prodndx q'
  settled : s.Settled l → q' = []
  mask : (s.hardPc l).sizemask + 1 = s.cpu.size
  nodup : (q ++ q').Nodup
  mem : ∀ c ∈ q ++ q', c < s.cpu.size ∧ (s.cpu.cyclics c).level = .soft l ∧ s.Pending c
  queued : ∀ c < s.cpu.size, (s.cpu.cyclics c).level = .soft l → s.large c = false →
    s.Pending c → c ∈ q ++ q'
  oldSame : ¬ s.Settled l → ∀ a, s.old = some a → ∀ c ∈ q,
    (a c).handler = (s.cpu.cyclics c).handler ∧ (a c).arg = (s.cpu.cyclics c).arg

/-- The array is the one in use, or the one before it during a resize. -/
def CycOk : Prop := t.cyclics = s.gen ∨ t.cyclics + 1 = s.gen ∧ ¬ s.Settled l

structure InLoop : Prop where
  cyc : CycOk s l t
  soft : t.soft = (s.cpu.softbuf l).soft
  cons : t.consndx = (s.softPc l).consndx
  mask : t.sizemask = (s.softPc l).sizemask

/-- The handler of the first entry is to be called. -/
structure Ready : Prop where
  loop : InLoop s l t
  head : q.head? = some t.ndx
  handler : t.handler = (s.cpu.cyclics t.ndx).handler
  arg : t.arg = (s.cpu.cyclics t.ndx).arg

/-- What is queued is not forgotten. -/
def Woken : Prop := q ++ q' ≠ [] → s.cpu.posted l = true

/-- What the soft interrupt can rely on at an access. -/
def Known (pc : SoftPc) : Prop :=
  match pc with
  | .idle => Woken s l q q'
  | .start => t.resized = false
  | .top => CycOk s l t
  | .readCons => CycOk s l t ∧ t.soft = (s.cpu.softbuf l).soft
  | .readMask => CycOk s l t ∧ t.soft = (s.cpu.softbuf l).soft ∧ t.consndx = (s.softPc l).consndx
  | .test => InLoop s l t
  | .readNdx => InLoop s l t ∧ q ≠ []
  | .readHandler => InLoop s l t ∧ q.head? = some t.ndx
  | .readArg => InLoop s l t ∧ q.head? = some t.ndx ∧
    t.handler = (s.cpu.cyclics t.ndx).handler
  | .call => Ready s l t q
  | .reread => Ready s l t q
  | .checkState => Ready s l t q ∧ (t.cyclics = s.gen → s.Unpaid t.ndx)
  | .reloadCyc => Ready s l t q
  | .reloadNdx => Ready s l t q
  | .cas => Ready s l t q ∧ 0 < t.pend
  | .rpendHandler => Ready s l t q ∧ t.cyclics = s.gen ∧ s.Unpaid t.ndx
  | .rpendArg => Ready s l t q ∧ t.cyclics = s.gen ∧ s.Unpaid t.ndx
  | .rpendRead => Ready s l t q ∧ t.cyclics = s.gen ∧ s.Unpaid t.ndx
  | .rpendCall => Ready s l t q ∧ t.cyclics = s.gen ∧ s.Unpaid t.ndx
  | .advance => InLoop s l t
  | .checkHard => CycOk s l t ∧ t.soft = (s.cpu.softbuf l).soft ∧
    (¬ s.Settled l → q = []) ∧ (s.Settled l → q ≠ [] → s.cpu.posted l = true)
  | .switchCyc => ¬ s.Settled l ∧ q = []
  | .readHard => ¬ s.Settled l ∧ q = [] ∧ t.cyclics = s.gen
  | .writeSoft => ¬ s.Settled l ∧ q = [] ∧ t.cyclics = s.gen ∧ t.hard = (s.cpu.softbuf l).hard
  | .readLev => t.resized = true ∧ Woken s l q q'
  | .casLev => t.resized = true ∧ Woken s l q q'
  | .post => Woken s l q q'

/-- No expiration is lost, or counted twice. -/
def Account : Prop :=
  ∀ c, (s.cpu.cyclics c).level = .soft l → s.large c = false →
    s.expired c + ahead t c = s.handled c + owed s t c

structure LevelInv : Prop where
  queue : QueueInv s l q q' t.pc.done
  known : Known s l t q q' t.pc
  account : Account s l t

end Level

/-! ## The rest of the system -/

/-- The level has yet to be counted in `cyp_modify_levels`. -/
def Sys.uncounted (s : Sys) (l : SoftLevel) : Bool :=
  !decide (s.shared.Settled l) ||
    ((s.thread l).resized && (s.thread l).pc != .idle && (s.thread l).pc != .post)

/-- The level is about to post `cyp_modify_wait`. -/
def Sys.posting (s : Sys) (l : SoftLevel) : Bool :=
  (s.thread l).pc = .post && (s.thread l).lev = 1

/-- The state that `cyclic_softint` looks at. -/
def Modifier.state : Modifier → CycState
  | .idle => .online
  | .expanding | .expandReady | .expandWait => .expanding
  | .removing _ _ | .removeWait _ | .removeRefused | .removeEnd => .removing

/-- The cyclics, and the thread that holds `cpu_lock`. -/
structure SharedInv (s : Shared) : Prop where
  slots : Slots s.cpu
  byExpire : ByExpire s.cpu
  pow : ∃ k, s.cpu.size = 2 ^ k
  freePend : ∀ c, (s.cpu.cyclics c).free = true → (s.cpu.cyclics c).pend = 0
  bound : ∀ c, (s.cpu.cyclics c).pend < 2 ^ 32
  small : ∀ c, s.large c = false → (s.cpu.cyclics c).pend < 2 ^ 31
  state : s.cpu.state = s.modifier.state
  settled : s.modifier ≠ .expandWait → ∀ l, s.Settled l
  old : s.modifier = .expandWait → ∃ a, s.old = some a ∧ ∀ c, (a c).pend = 0
  ready : s.modifier = .expandReady → s.cpu.modifyLevels = 0 ∧ s.posts = 0 ∧
    ∀ l, ((s.cpu.softbuf l).buf (!(s.cpu.softbuf l).hard)).prodndx = 0 ∧
      ((s.cpu.softbuf l).buf (!(s.cpu.softbuf l).hard)).consndx = 0 ∧
      ((s.cpu.softbuf l).buf (!(s.cpu.softbuf l).hard)).sizemask = 2 * s.cpu.size - 1
  waiting : ∀ c, s.modifier = .removeWait c → 0 < s.cpu.rpend ∧ s.cpu.rpend < 2 ^ 32 ∧
    (s.cpu.cyclics c).free = true
  rpend : (∀ c, s.modifier ≠ .removeWait c) → s.modifier ≠ .removeEnd → s.cpu.rpend = 0
  sema : s.modifier ≠ .expandWait → (∀ c, s.modifier ≠ .removeWait c) → s.cpu.modifyWait = 0
  semaRemove : ∀ c, s.modifier = .removeWait c → s.cpu.modifyWait ≤ 1
  semaExpand : s.modifier = .expandWait → s.cpu.modifyWait = s.posts
  beyond : ∀ c, s.cpu.size ≤ c → s.expired c = 0 ∧ s.handled c = 0

/-- The two levels count themselves in a resize; the second posts. -/
structure ResizeInv (s : Sys) : Prop where
  resized : ∀ l, (s.thread l).resized = true → (s.thread l).pc ≠ .idle → (s.thread l).pc ≠ .post →
    s.shared.modifier = .expandWait ∧ s.shared.Settled l
  levels : s.shared.modifier = .expandWait →
    s.shared.cpu.modifyLevels + (s.uncounted .low).toNat + (s.uncounted .lock).toNat = 2
  posts : s.shared.modifier = .expandWait →
    s.shared.posts + (s.posting .low).toNat + (s.posting .lock).toNat =
      if s.shared.cpu.modifyLevels = 2 then 1 else 0
  noPosting : s.shared.modifier ≠ .expandWait → ∀ l, s.posting l = false
  lockWake : ¬ s.shared.Settled .lock →
    (s.thread .lock).pc = .idle ∨ (s.thread .lock).pc = .post → s.shared.cpu.posted .lock = true
  lowWake : ¬ s.shared.Settled .low →
    (s.thread .low).pc = .idle ∨ (s.thread .low).pc = .post →
    s.shared.cpu.posted .low = true ∨ s.uncounted .lock = true ∨
      ((s.thread .lock).pc = .post ∧ (s.thread .lock).lev = 0)

/-- The invariant of the system. -/
structure SysInv (s : Sys) : Prop where
  shared : SharedInv s.shared
  resize : ResizeInv s
  level : ∀ l, ∃ q q', LevelInv s.shared l (s.thread l) q q'

end Osol.Cyc
