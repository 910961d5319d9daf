import Osol.Turnstile.Sleepq

/-!
# Turnstiles

`turnstile_block`, `turnstile_wakeup` and `turnstile_unsleep` for the synchronization objects of the
kernel. A function runs to its end under the lock of the hash chain; the dance for the locks of the
threads on a blocking chain is left out, and so is what only `SOBJ_USER_PI` objects need. The lists
that the source links through the turnstiles (`ts_next`, `ts_free`, `ts_prioinv`) are lists.
-/

namespace Osol.Turnstile

open Function

/-- `TS_WRITER_Q` and `TS_READER_Q`. -/
inductive Qnum
  | writer
  | reader
  deriving DecidableEq

structure Ts (T O K : Type) where
  sobj : Option O
  waiters : ℕ
  epri : ℕ
  inheritor : Option T
  free : List K
  sleepq : Qnum → List T

/-- The fields of `kthread_t` that turnstiles use. A thread with a `wchan` sleeps. -/
structure Thread (O K : Type) where
  ts : K
  pri : ℕ
  epri : ℕ
  writer : Bool
  prioinv : List K
  wchan : Option O
  sleepq : Option (K × Qnum)

def Thread.dispPrio {O K : Type} (t : Thread O K) : ℕ := if t.epri > t.pri then t.epri else t.pri

def Thread.cmpPrio {O K : Type} (t : Thread O K) : ℕ := 2 * t.dispPrio + t.writer.toNat

/-- The turnstiles, the threads and `turnstile_table`. -/
structure Sys (T O K B : Type) where
  ts : K → Ts T O K
  thread : T → Thread O K
  chain : B → List K

/-- What is given: `TURNSTILE_SOBJ_BUCKET`, which objects are mutexes, and the priorities that the
scheduling classes assign in `CL_SLEEP` and `CL_WAKEUP`. -/
structure Env (T O B : Type) where
  bucket : O → B
  mutex : O → Bool
  clSleep : T → ℕ → ℕ
  clWakeup : T → ℕ → ℕ

/-- Why a function does not return. -/
inductive Panic
  | unownedMutex
  | deadlock
  | notWoken
  /-- `rw_panic`. -/
  | rwlock
  /-- A null pointer. -/
  | fault
  /-- The walk is longer than the bound it was given. -/
  | fuel
  deriving DecidableEq

namespace Sys

variable {T O K B : Type}

section Fields

variable (s : Sys T O K B)

def setTs [DecidableEq K] (k : K) (f : Ts T O K → Ts T O K) : Sys T O K B :=
  { s with ts := update s.ts k (f (s.ts k)) }

def setThread [DecidableEq T] (t : T) (f : Thread O K → Thread O K) : Sys T O K B :=
  { s with thread := update s.thread t (f (s.thread t)) }

def setChain [DecidableEq B] (b : B) (l : List K) : Sys T O K B := { s with chain := update s.chain b l }

/-- The order of the sleep queues. -/
def cmpPrio (t : T) : ℕ := (s.thread t).cmpPrio

def dispPrio (t : T) : ℕ := (s.thread t).dispPrio

variable {s} {k : K} {t : T} {b : B} {l : List K} {f : Ts T O K → Ts T O K} {g : Thread O K → Thread O K}

@[simp] theorem setTs_ts [DecidableEq K] : (s.setTs k f).ts = update s.ts k (f (s.ts k)) := rfl

@[simp] theorem setTs_thread [DecidableEq K] : (s.setTs k f).thread = s.thread := rfl

@[simp] theorem setTs_chain [DecidableEq K] : (s.setTs k f).chain = s.chain := rfl

@[simp] theorem setThread_ts [DecidableEq T] : (s.setThread t g).ts = s.ts := rfl

@[simp] theorem setThread_thread [DecidableEq T] :
    (s.setThread t g).thread = update s.thread t (g (s.thread t)) := rfl

@[simp] theorem setThread_chain [DecidableEq T] : (s.setThread t g).chain = s.chain := rfl

@[simp] theorem setChain_ts [DecidableEq B] : (s.setChain b l).ts = s.ts := rfl

@[simp] theorem setChain_thread [DecidableEq B] : (s.setChain b l).thread = s.thread := rfl

@[simp] theorem setChain_chain [DecidableEq B] : (s.setChain b l).chain = update s.chain b l := rfl

end Fields

variable [DecidableEq T] [DecidableEq O] [DecidableEq K] [DecidableEq B]

/-! ## Sleep queues -/

def sleepqInsert (s : Sys T O K B) (k : K) (qnum : Qnum) (t : T) : Sys T O K B :=
  (s.setTs k fun ts =>
    { ts with sleepq := update ts.sleepq qnum (Turnstile.sleepqInsert s.cmpPrio t
      (ts.sleepq qnum)) }).setThread t
    fun th => { th with sleepq := some (k, qnum) }

variable (s : Sys T O K B)

def sleepqDequeue (t : T) : Sys T O K B :=
  match (s.thread t).sleepq with
  | none => s
  | some (k, qnum) =>
    (s.setTs k fun ts => { ts with sleepq := update ts.sleepq qnum ((ts.sleepq qnum).erase t) }).setThread t
      fun th => { th with sleepq := none }

/-- `turnstile_change_pri`, with the two priorities of the thread after it. -/
def changePri (t : T) (pri epri : ℕ) : Sys T O K B :=
  match (s.thread t).sleepq with
  | none => s.setThread t fun th => { th with pri := pri, epri := epri }
  | some (k, qnum) =>
    ((s.sleepqDequeue t).setThread t fun th => { th with pri := pri, epri := epri }).sleepqInsert k qnum t

def threadChangeEpri (t : T) (pri : ℕ) : Sys T O K B :=
  if (s.thread t).epri = pri then s else s.changePri t (s.thread t).pri pri

def threadChangePri (t : T) (pri : ℕ) : Sys T O K B := s.changePri t pri (s.thread t).epri

/-! ## Inheritance -/

/-- The first part of `turnstile_pi_inherit`, which says that the thread inherits. -/
def setInheritor (k : K) (inheritor : T) (epri : ℕ) : Sys T O K B :=
  match (s.ts k).inheritor with
  | none =>
    (s.setTs k fun ts => { ts with inheritor := some inheritor, epri := epri }).setThread inheritor
      fun th => { th with prioinv := k :: th.prioinv }
  | some _ => if (s.ts k).epri < epri then s.setTs k fun ts => { ts with epri := epri } else s

def piInherit (k : K) (inheritor : T) (epri : ℕ) : Sys T O K B :=
  if epri ≤ (s.thread inheritor).pri then s
  else
    let s' := s.setInheritor k inheritor epri
    if epri > s'.dispPrio inheritor then s'.threadChangeEpri inheritor epri else s'

/-- The list that `turnstile_pi_tsdelete` leaves. -/
def unlinkTs (k : K) : List K → List K
  | [] => []
  | k' :: l => if k' = k then unlinkTs k l else k' :: unlinkTs k l

/-- The priority that `turnstile_pi_tsdelete` computes. -/
def newEpri (s : Sys T O K B) (k : K) : List K → ℕ → ℕ
  | [], epri => epri
  | k' :: l, epri => s.newEpri k l (if k' = k then epri else max epri (s.ts k').epri)

def piTsdelete (k : K) (inheritor : T) : Sys T O K B × ℕ :=
  (s.setThread inheritor fun th => { th with prioinv := unlinkTs k th.prioinv },
    s.newEpri k (s.thread inheritor).prioinv 0)

def piWaive (k : K) (inheritor : T) : Sys T O K B :=
  let r := s.piTsdelete k inheritor
  let s' := if r.2 ≠ r.1.dispPrio inheritor then r.1.threadChangeEpri inheritor r.2 else r.1
  s'.setTs k fun ts => { ts with inheritor := none }

/-! ## Blocking -/

variable (env : Env T O B)

def lookup (s : Sys T O K B) (sobj : O) : Option K :=
  (s.chain (env.bucket sobj)).find? fun k => (s.ts k).sobj = some sobj

/-- The turnstile that a thread blocks on: its own, which becomes the active one, or the active one,
which gets the thread's own. -/
def attach (s : Sys T O K B) (t : T) (sobj : O) : Sys T O K B :=
  match s.lookup env sobj with
  | none =>
    let k := (s.thread t).ts
    (s.setTs k fun ts => { ts with sobj := some sobj }).setChain (env.bucket sobj)
      (k :: s.chain (env.bucket sobj))
  | some k =>
    (s.setTs k fun ts => { ts with free := (s.thread t).ts :: ts.free }).setThread t fun th =>
    { th with ts := k }

/-- The thread goes to sleep on its turnstile. -/
def sleep (s : Sys T O K B) (t : T) (qnum : Qnum) (sobj : O) : Sys T O K B :=
  let s := s.setThread t fun th => { th with pri := env.clSleep t th.pri, wchan := some sobj }
  let k := (s.thread t).ts
  (s.setTs k fun ts => { ts with waiters := ts.waiters + 1 }).sleepqInsert k qnum t

/-- The blocking chain, up to its end: everyone in the way inherits. -/
def will (owner : O → Option T) (curthread : T) : ℕ → T → Sys T O K B → Except Panic (Sys T O K B)
  | 0, _, _ => .error .fuel
  | fuel + 1, t, s =>
    match (s.thread t).wchan.bind owner with
    | none => .ok s
    | some o =>
      if o = curthread then .error .deadlock
      else will owner curthread fuel o (s.piInherit (s.thread t).ts o (s.dispPrio t))

/-- `turnstile_block`, up to where the thread gives up the processor. -/
def block (owner : O → Option T) (fuel : ℕ) (s : Sys T O K B) (t : T) (qnum : Qnum) (sobj : O) :
    Except Panic (Sys T O K B) :=
  if env.mutex sobj ∧ owner sobj = none then .error .unownedMutex
  else will owner t fuel t ((s.attach env t sobj).sleep env t qnum sobj)

/-! ## Waking -/

/-- The turnstile that a thread takes with it: one that was stashed, or the active one, if the
thread is the last waiter. -/
def detach (s : Sys T O K B) (t : T) : Sys T O K B :=
  let k := (s.thread t).ts
  match (s.ts k).free with
  | tsfree :: l => (s.setTs k fun ts => { ts with free := l }).setThread t fun th =>
      { th with ts := tsfree }
  | [] =>
    let s' := match (s.ts k).inheritor with
      | none => s
      | some inheritor => (s.piTsdelete k inheritor).1.setTs k fun ts => { ts with inheritor := none }
    match (s.ts k).sobj with
    | none => s'
    | some sobj => s'.setChain (env.bucket sobj) ((s'.chain (env.bucket sobj)).erase k)

def dequeue (s : Sys T O K B) (t : T) : Sys T O K B :=
  (((s.detach env t).setTs (s.thread t).ts fun ts =>
    { ts with waiters := ts.waiters - 1 }).sleepqDequeue t).setThread t
    fun th => { th with wchan := none }

def unsleep (s : Sys T O K B) (t : T) : Sys T O K B := s.dequeue env t

/-- The priority of the first thread of a queue. -/
def firstPri (k : K) (qnum : Qnum) : ℕ :=
  match (s.ts k).sleepq qnum with
  | [] => 0
  | t :: _ => s.dispPrio t

/-- The loop of `turnstile_wakeup`, with the owner that is still to be woken. -/
def wakeLoop (env : Env T O B) (k : K) (qnum : Qnum) :
    ℕ → Option T → Sys T O K B → Except Panic (Option T × Sys T O K B)
  | 0, owner, s => .ok (owner, s)
  | n + 1, owner, s =>
    match (s.ts k).sleepq qnum with
    | [] => .error .fault
    | t :: _ =>
      let s := (s.dequeue env t).setThread t fun th => { th with pri := env.clWakeup t th.pri }
      if owner = some t then
        wakeLoop env k qnum n none (s.piInherit k t (max (s.firstPri k .writer) (s.firstPri k .reader)))
      else wakeLoop env k qnum n owner s

def wakeup (s : Sys T O K B) (k : K) (qnum : Qnum) (nthreads : ℕ) (owner : Option T) :
    Except Panic (Sys T O K B) :=
  let s := match (s.ts k).inheritor with
    | none => s
    | some inheritor => s.piWaive k inheritor
  match wakeLoop env k qnum nthreads owner s with
  | .error e => .error e
  | .ok (some _, _) => .error .notWoken
  | .ok (none, s) => .ok s

end Sys

end Osol.Turnstile
