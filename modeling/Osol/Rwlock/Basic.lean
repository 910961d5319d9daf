import Osol.Rwlock.Word
import Osol.Turnstile.Sleepq

/-!
# Readers/writer locks

`rw_enter_sleep`, `rw_exit_wakeup`, `rw_tryenter`, `rw_downgrade` and `rw_tryupgrade` on one lock,
run by any number of threads. A step of a thread is one access to the word of the lock, or one of the
calls that take or drop the lock of the turnstile chain. The turnstile is its two sleep queues; how
turnstiles are donated and priorities are willed is a matter of `Osol.Turnstile`. Back-off and
statistics are left out.
-/

namespace Osol.Rwlock

open Turnstile Function

inductive Krw
  | reader
  | writer
  deriving DecidableEq

/-- The addresses of the threads. The low bits are free for those of the lock, also the lowest one
of the count, and no count of readers is as great as an address. -/
structure Threads (T : Type) [Fintype T] where
  addr : T → Word
  injective : Injective addr
  aligned : ∀ t, (addr t).toNat % 16 = 0
  above : ∀ t, 8 * Fintype.card T < (addr t).toNat

/-- `lock_value`, `lock_busy` and `lock_wait` of `rw_enter_sleep`. -/
def lockValue (curthread : Word) : Krw → Word
  | .reader => rwReadLock
  | .writer => rwWriteLock curthread

def lockBusy : Krw → Word
  | .reader => rwWriteClaimed
  | .writer => rwLocked

def lockWait : Krw → Word
  | .reader => rwHasWaiters
  | .writer => rwHasWaiters ||| rwWriteWanted

/-! ## Threads -/

/-- The next access of a thread, with the variables that it still reads. -/
inductive Pc
  /-- Outside of the lock's functions, after they gave it the lock in this mode. -/
  | idle (own : Option Krw)
  | enter (rw : Krw)
  | enterCas (rw : Krw) (old : Word)
  | enterLookup (rw : Krw)
  /-- The read in the loop that holds the lock of the chain. -/
  | enterTest (rw : Krw)
  | enterWait (rw : Krw) (old : Word)
  /-- `turnstile_exit`, since the lock appears free. -/
  | enterAgain (rw : Krw)
  | enterBlock (rw : Krw)
  | asleep (rw : Krw)
  | exit
  | exitLoop (lockValue : Word)
  | exitCas (lockValue old new : Word)
  | exitLookup (old : Word)
  | exitHandoff (old : Word)
  | tryenter (rw : Krw)
  | tryenterCas (old : Word)
  | downgrade
  | downgradeAdd
  | downgradeLookup
  | downgradeHandoff
  | tryupgrade
  | tryupgradeCas (old new : Word)
  /-- `turnstile_wakeup`, at the end of a function that leaves the thread with this mode. -/
  | wakeup (qnum : Krw) (nthreads : ℕ) (own : Option Krw)
  | panic
  deriving DecidableEq

/-- Whether the thread holds the lock of the chain. -/
def Pc.critical : Pc → Bool
  | .enterTest _ | .enterWait _ _ | .enterAgain _ | .enterBlock _ | .exitHandoff _ | .downgradeHandoff
  | .wakeup _ _ _ => true
  | _ => false

/-- The state. `hold` is who holds the lock, from the access that gives it to the access that takes
it; no function reads it. -/
structure Sys (T : Type) where
  word : Word
  pc : T → Pc
  chain : Option T
  writers : List T
  readers : List T
  pri : T → ℕ
  hold : T → Option Krw

inductive Call
  | enter (rw : Krw)
  | exit
  | tryenter (rw : Krw)
  | downgrade
  | tryupgrade

namespace Sys

variable {T : Type}

variable (s : Sys T)

/-- `ts_sleepq[qnum]`. -/
def queue : Krw → List T
  | .reader => s.readers
  | .writer => s.writers

def tsWaiters : ℕ := s.writers.length + s.readers.length

variable [DecidableEq T]

def go (t : T) (p : Pc) : Sys T := { s with pc := update s.pc t p }

def rwReadersToWake : ℕ :=
  let wpri : ℤ := match s.writers with
    | [] => -1
    | nextWriter :: _ => s.pri nextWriter
  (s.readers.takeWhile fun nextReader => ¬ (s.pri nextReader : ℤ) < wpri).length

/-- A thread goes on after `turnstile_block`. -/
def returned : Pc → Pc
  | .asleep rw => .idle (some rw)
  | p => p

def grant (hold : T → Option Krw) (l : List T) (rw : Krw) : T → Option Krw :=
  fun t => if t ∈ l then some rw else hold t

def lookup (t : T) (p : Pc) : Option (Sys T) :=
  if s.chain = none then some { s.go t p with chain := some t } else none

/-- The hand-off of `rw_exit_wakeup`. -/
def handoff [Fintype T] (th : Threads T) (s : Sys T) (t : T) (old : Word) : Sys T :=
  let nreaders := s.rwReadersToWake
  if old &&& rwWriteLocked ≠ 0 ∧ 0 < nreaders then
    let new := BitVec.ofNat 64 nreaders * rwReadLock
    let new := if s.tsWaiters > nreaders then new ||| rwHasWaiters else new
    let new := if s.writers ≠ [] then new ||| rwWriteWanted else new
    { s.go t (.wakeup .reader nreaders none) with
      word := new, hold := grant (update s.hold t none) (s.readers.take nreaders) .reader }
  else
    match s.writers with
    | [] => s.go t .panic
    | nextWriter :: link =>
      let new := rwWriteLock (th.addr nextWriter)
      let new := if s.tsWaiters > 1 then new ||| rwHasWaiters else new
      let new := if link ≠ [] then new ||| rwWriteWanted else new
      { s.go t (.wakeup .writer 1 none) with
        word := new, hold := grant (update s.hold t none) [nextWriter] .writer }

/-- The second half of `rw_downgrade`. -/
def downgraded (t : T) : Sys T :=
  let nreaders := s.rwReadersToWake
  let delta := BitVec.ofNat 64 nreaders * rwReadLock
  let delta := if s.tsWaiters = nreaders then delta - rwHasWaiters else delta
  { s.go t (.wakeup .reader nreaders (some .reader)) with
    word := if 0 < nreaders then s.word + delta else s.word
    hold := grant s.hold (s.readers.take nreaders) .reader }

/-- `turnstile_block`, up to where the lock of the chain is dropped. -/
def block (t : T) (rw : Krw) : Sys T :=
  let s' := { s.go t (.asleep rw) with chain := none }
  match rw with
  | .reader => { s' with readers := sleepqInsert s.pri t s.readers }
  | .writer => { s' with writers := sleepqInsert s.pri t s.writers }

/-- `turnstile_wakeup`. -/
def wake (t : T) (qnum : Krw) (nthreads : ℕ) (own : Option Krw) : Sys T :=
  let woken := (s.queue qnum).take nthreads
  let pc := fun u => if u ∈ woken then returned (s.pc u) else s.pc u
  let s' := { s with pc := update pc t (.idle own), chain := none }
  match qnum with
  | .reader => { s' with readers := s.readers.drop nthreads }
  | .writer => { s' with writers := s.writers.drop nthreads }

/-- The thread has the lock in a mode, or not at all. -/
def move (t : T) (word : Word) (mode : Option Krw) (p : Pc) : Sys T :=
  { s.go t p with word := word, hold := update s.hold t mode }

variable [Fintype T] (th : Threads T)

/-- One step of a thread, which calls functions as it may. -/
def step (t : T) (call : Call) : Option (Sys T) :=
  match s.pc t with
  | .idle own =>
    match call, own with
    | .enter rw, none => some (s.go t (.enter rw))
    | .tryenter rw, none => some (s.go t (.tryenter rw))
    | .exit, some _ => some (s.go t .exit)
    | .downgrade, some .writer => some (s.go t .downgrade)
    | .tryupgrade, some .reader => some (s.go t .tryupgrade)
    | _, _ => none
  | .enter rw =>
    some (s.go t ( if s.word &&& lockBusy rw = 0 then .enterCas rw s.word
      else if s.word &&& rwDoubleLock = rwDoubleLock then .panic
      else if s.word &&& rwOwner = th.addr t then .panic
      else .enterLookup rw))
  | .enterCas rw old =>
    some (if s.word = old then s.move t (old + lockValue (th.addr t) rw) (some rw) (.idle (some rw))
      else s.go t (.enter rw))
  | .enterLookup rw => s.lookup t (.enterTest rw)
  | .enterTest rw =>
    some (s.go t ( if s.word &&& lockBusy rw = 0 then .enterAgain rw
      else if s.word ||| lockWait rw = s.word then .enterBlock rw
      else .enterWait rw s.word))
  | .enterWait rw old =>
    some (if s.word = old then { s.go t (.enterBlock rw) with word := old ||| lockWait rw }
      else s.go t (.enterTest rw))
  | .enterAgain rw => some { s.go t (.enter rw) with chain := none }
  | .enterBlock rw => some (s.block t rw)
  | .asleep _ => none
  | .exit =>
    some (s.go t ( if s.word &&& rwWriteLocked ≠ 0 then
        if s.word &&& rwOwner ≠ th.addr t then .panic else .exitLoop (lockValue (th.addr t) .writer)
      else if s.word &&& rwLocked = 0 then .panic
      else .exitLoop (lockValue (th.addr t) .reader)))
  | .exitLoop lv =>
    some (s.go t (
      if (s.word - lv) &&& (rwLocked ||| rwHasWaiters) ≠ rwHasWaiters then .exitCas lv s.word (s.word - lv)
      else .exitLookup s.word))
  | .exitCas lv old new =>
    some (if s.word = old then s.move t new none (.idle none) else s.go t (.exitLoop lv))
  | .exitLookup old => s.lookup t (.exitHandoff old)
  | .exitHandoff old => some (handoff th s t old)
  | .tryenter .reader =>
    some (s.go t (if s.word &&& rwWriteClaimed ≠ 0 then .idle none else .tryenterCas s.word))
  | .tryenter .writer =>
    some (if s.word = 0 then s.move t (rwWriteLock (th.addr t)) (some .writer) (.idle (some .writer))
      else s.go t (.idle none))
  | .tryenterCas old =>
    some (if s.word = old then s.move t (old + rwReadLock) (some .reader) (.idle (some .reader))
      else s.go t (.tryenter .reader))
  | .downgrade => some (s.go t (if s.word &&& rwOwner ≠ th.addr t then .panic else .downgradeAdd))
  | .downgradeAdd =>
    let new := s.word + (rwReadLock - rwWriteLock (th.addr t))
    some (s.move t new (some .reader)
      (if new &&& rwHasWaiters ≠ 0 then .downgradeLookup else .idle (some .reader)))
  | .downgradeLookup => s.lookup t .downgradeHandoff
  | .downgradeHandoff => some (s.downgraded t)
  | .tryupgrade =>
    some (s.go t ( if s.word &&& ~~~rwHasWaiters ≠ rwReadLock then .idle (some .reader)
      else .tryupgradeCas s.word (s.word + rwWriteLock (th.addr t) - rwReadLock)))
  | .tryupgradeCas old new =>
    some (if s.word = old then s.move t new (some .writer) (.idle (some .writer)) else s.go t .tryupgrade)
  | .wakeup qnum nthreads own => some (s.wake t qnum nthreads own)
  | .panic => none

/-- The lock after `rw_init`, which nobody uses. -/
def init (pri : T → ℕ) : Sys T := ⟨0, fun _ => .idle none, none, [], [], pri, fun _ => none⟩

/-- A step of a thread, or a change of priorities: a sleep queue is sorted again under the lock of
the chain. -/
inductive Step : Sys T → Sys T → Prop
  | run {s s' : Sys T} (t : T) (call : Call) : s.step th t call = some s' → Step s s'
  | pri {s : Sys T} (pri : T → ℕ) (writers readers : List T) : s.chain = none → writers.Perm s.writers →
      readers.Perm s.readers → Step s { s with pri := pri, writers := writers, readers := readers }

/-- The states of the runs. -/
inductive Reachable : Sys T → Prop
  | init (pri : T → ℕ) : Reachable (init pri)
  | step {s s' : Sys T} : Reachable s → Step th s s' → Reachable s'

end Sys

end Osol.Rwlock
