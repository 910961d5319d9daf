import Osol.Zfs.Txg.Slot

/-!
# The transaction group state machine

`txg.c` moves transaction groups from open through quiescing and quiesced to syncing.
Holders enter the open group under the lock of their CPU, the quiesce thread closes it
and waits for them to leave, and the sync thread passes it to `spa_sync`.

The machine takes one step at a time. A section of code under `tx_sync_lock` is one step,
since every field it changes is changed only there; so is a section under one `tc_lock`.
`txg_hold_open` returns with its `tc_lock` held, and `txg_quiesce` holds them all while it
moves `tx_open_txg`, so these two take and drop the locks in steps of their own, and read
`tx_open_txg` in a step of its own.
-/

namespace Osol.Zfs.Txg

open Function

/-- `tc_lock` of a CPU, with what its owner has done. -/
inductive TcLock where
  | free
  /-- `txg_hold_open` has the lock. -/
  | entered
  /-- `txg_hold_open` has also read `tx_open_txg`. -/
  | chosen (txg : ℕ)
  /-- `txg_hold_open` has returned; the lock is kept for `txg_rele_to_quiesce`. -/
  | held
  /-- `txg_quiesce` has the lock. -/
  | quiesce
  deriving DecidableEq

inductive QuiescePc where
  | stopped
  /-- At the head of its loop. -/
  | idle
  /-- In `txg_quiesce(txg)`, with the locks below `c` taken. -/
  | locking (txg c : ℕ)
  /-- After `tx_open_txg++`, with the locks below `c` dropped again. -/
  | unlocking (txg c : ℕ)
  /-- Waiting for the holds of CPU `c`. -/
  | draining (txg c : ℕ)
  deriving DecidableEq

inductive SyncPc where
  | stopped
  /-- In its first wait loop. -/
  | idle
  /-- In its second wait loop, prompting the quiesce thread. -/
  | prompting
  /-- A quiesced group is taken and the lock dropped. -/
  | taken (txg : ℕ)
  /-- In `spa_sync(txg)`. -/
  | syncing (txg : ℕ)
  deriving DecidableEq

/-- `tx_state_t` and the threads behind it. -/
structure TxState where
  tcLock : ℕ → TcLock
  tcCount : ℕ → ℕ → ℕ
  txOpenTxg : ℕ
  txQuiescedTxg : ℕ
  txSyncingTxg : ℕ
  txSyncedTxg : ℕ
  txSyncTxgWaiting : ℕ
  txQuiesceTxgWaiting : ℕ
  txExiting : Bool
  txQuiesceThread : QuiescePc
  txSyncThread : SyncPc

/-- The state with its history: the holds that were taken and not yet released, by CPU
and group, and the groups `spa_sync` was entered with. -/
structure State where
  tx : TxState
  holds : ℕ → ℕ → ℕ
  spaSyncs : List ℕ

def txgInit (txg : ℕ) : TxState where
  tcLock := fun _ => .free
  tcCount := fun _ _ => 0
  txOpenTxg := txg
  txQuiescedTxg := 0
  txSyncingTxg := 0
  txSyncedTxg := 0
  txSyncTxgWaiting := 0
  txQuiesceTxgWaiting := 0
  txExiting := false
  txQuiesceThread := .stopped
  txSyncThread := .stopped

/-- Change an entry of an array of arrays. -/
def modify2 (f : ℕ → ℕ → ℕ) (i j v : ℕ) : ℕ → ℕ → ℕ :=
  update f i (update (f i) j v)

namespace TxState

def setLock (tx : TxState) (c : ℕ) (l : TcLock) : TxState :=
  { tx with tcLock := update tx.tcLock c l }

def setCount (tx : TxState) (c txg n : ℕ) : TxState :=
  { tx with tcCount := modify2 tx.tcCount c (txgSlot txg) n }

end TxState

/-- The steps of the machine. -/
inductive Event where
  | holdEnter (c : ℕ)
  | holdChoose (c : ℕ)
  | holdReturn (c : ℕ)
  | releToQuiesce (c : ℕ)
  | releToSync (c txg : ℕ)
  | quiesceStart
  | quiesceLock
  | quiesceOpen
  | quiesceUnlock
  | quiesceUnlocked
  | quiesceDrain
  | quiesceHandOff
  | quiesceExit
  | syncWake (scrubOrTimeout : Bool)
  | syncPrompt
  | syncTake
  | spaSync
  | syncDone
  | syncExit
  | waitSynced (txg : ℕ)
  | waitOpen (txg : ℕ)
  | syncStart
  | syncStop
  | syncStopped
  deriving DecidableEq

section Steps

variable (ncpus : ℕ) (st : State)

/-- `txg_hold_open` and the two releases, on CPU `c`. -/
def holdStep (c : ℕ) : Event → Option State
  | .holdEnter _ =>
    if c < ncpus ∧ st.tx.tcLock c = .free then some { st with tx := st.tx.setLock c .entered }
    else none
  | .holdChoose _ =>
    if st.tx.tcLock c = .entered then
      some { st with tx := st.tx.setLock c (.chosen st.tx.txOpenTxg) }
    else none
  | .holdReturn _ =>
    match st.tx.tcLock c with
    | .chosen txg =>
      some { st with
        tx := (st.tx.setLock c .held).setCount c txg (st.tx.tcCount c (txgSlot txg) + 1)
        holds := modify2 st.holds c txg (st.holds c txg + 1) }
    | _ => none
  | .releToQuiesce _ =>
    if st.tx.tcLock c = .held then some { st with tx := st.tx.setLock c .free } else none
  | .releToSync _ txg =>
    if st.tx.tcLock c = .free ∧ 0 < st.holds c txg then
      some { st with
        tx := st.tx.setCount c txg (st.tx.tcCount c (txgSlot txg) - 1)
        holds := modify2 st.holds c txg (st.holds c txg - 1) }
    else none
  | _ => none

def quiesceStep : Event → Option State
  | .quiesceStart =>
    if st.tx.txQuiesceThread = .idle ∧ st.tx.txExiting = false ∧
        st.tx.txOpenTxg < st.tx.txQuiesceTxgWaiting ∧ st.tx.txQuiescedTxg = 0 then
      some { st with tx := { st.tx with txQuiesceThread := .locking st.tx.txOpenTxg 0 } }
    else none
  | .quiesceLock =>
    match st.tx.txQuiesceThread with
    | .locking txg c =>
      if c < ncpus ∧ st.tx.tcLock c = .free then
        some { st with tx := { st.tx.setLock c .quiesce with
          txQuiesceThread := .locking txg (c + 1) } }
      else none
    | _ => none
  | .quiesceOpen =>
    match st.tx.txQuiesceThread with
    | .locking txg c =>
      if c = ncpus then
        some { st with tx := { st.tx with
          txOpenTxg := st.tx.txOpenTxg + 1, txQuiesceThread := .unlocking txg 0 } }
      else none
    | _ => none
  | .quiesceUnlock =>
    match st.tx.txQuiesceThread with
    | .unlocking txg c =>
      if c < ncpus then
        some { st with tx := { st.tx.setLock c .free with
          txQuiesceThread := .unlocking txg (c + 1) } }
      else none
    | _ => none
  | .quiesceUnlocked =>
    match st.tx.txQuiesceThread with
    | .unlocking txg c =>
      if c = ncpus then some { st with tx := { st.tx with txQuiesceThread := .draining txg 0 } }
      else none
    | _ => none
  | .quiesceDrain =>
    match st.tx.txQuiesceThread with
    | .draining txg c =>
      if c < ncpus ∧ st.tx.tcLock c = .free ∧ st.tx.tcCount c (txgSlot txg) = 0 then
        some { st with tx := { st.tx with txQuiesceThread := .draining txg (c + 1) } }
      else none
    | _ => none
  | .quiesceHandOff =>
    match st.tx.txQuiesceThread with
    | .draining txg c =>
      if c = ncpus then
        some { st with tx := { st.tx with txQuiescedTxg := txg, txQuiesceThread := .idle } }
      else none
    | _ => none
  | .quiesceExit =>
    if st.tx.txQuiesceThread = .idle ∧ st.tx.txExiting = true then
      some { st with tx := { st.tx with txQuiesceThread := .stopped } }
    else none
  | _ => none

def syncStep : Event → Option State
  | .syncWake scrubOrTimeout =>
    if st.tx.txSyncThread = .idle ∧ st.tx.txExiting = false ∧ (scrubOrTimeout = true ∨
        st.tx.txSyncedTxg < st.tx.txSyncTxgWaiting ∨ st.tx.txQuiescedTxg ≠ 0) then
      some { st with tx := { st.tx with txSyncThread := .prompting } }
    else none
  | .syncPrompt =>
    if st.tx.txSyncThread = .prompting ∧ st.tx.txExiting = false ∧ st.tx.txQuiescedTxg = 0 then
      some { st with tx := { st.tx with
        txQuiesceTxgWaiting := max st.tx.txQuiesceTxgWaiting (st.tx.txOpenTxg + 1) } }
    else none
  | .syncTake =>
    if st.tx.txSyncThread = .prompting ∧ st.tx.txExiting = false ∧ st.tx.txQuiescedTxg ≠ 0 then
      some { st with tx := { st.tx with
        txQuiescedTxg := 0, txSyncingTxg := st.tx.txQuiescedTxg,
        txSyncThread := .taken st.tx.txQuiescedTxg } }
    else none
  | .spaSync =>
    match st.tx.txSyncThread with
    | .taken txg =>
      some { st with
        tx := { st.tx with txSyncThread := .syncing txg }, spaSyncs := st.spaSyncs ++ [txg] }
    | _ => none
  | .syncDone =>
    match st.tx.txSyncThread with
    | .syncing txg =>
      some { st with tx := { st.tx with
        txSyncedTxg := txg, txSyncingTxg := 0, txSyncThread := .idle } }
    | _ => none
  | .syncExit =>
    if (st.tx.txSyncThread = .idle ∨ st.tx.txSyncThread = .prompting) ∧
        st.tx.txExiting = true then
      some { st with tx := { st.tx with txSyncThread := .stopped } }
    else none
  | _ => none

/-- `txg_wait_synced`, `txg_wait_open`, `txg_sync_start` and `txg_sync_stop`. -/
def otherStep : Event → Option State
  | .waitSynced txg =>
    let txg := if txg = 0 then st.tx.txOpenTxg + txgDeferSize else txg
    some { st with tx := { st.tx with txSyncTxgWaiting := max st.tx.txSyncTxgWaiting txg } }
  | .waitOpen txg =>
    let txg := if txg = 0 then st.tx.txOpenTxg + 1 else txg
    some { st with tx := { st.tx with txQuiesceTxgWaiting := max st.tx.txQuiesceTxgWaiting txg } }
  | .syncStart =>
    if st.tx.txQuiesceThread = .stopped ∧ st.tx.txSyncThread = .stopped ∧
        st.tx.txExiting = false then
      some { st with tx := { st.tx with txQuiesceThread := .idle, txSyncThread := .idle } }
    else none
  | .syncStop => some { st with tx := { st.tx with txExiting := true } }
  | .syncStopped =>
    if st.tx.txQuiesceThread = .stopped ∧ st.tx.txSyncThread = .stopped then
      some { st with tx := { st.tx with txExiting := false } }
    else none
  | _ => none

/-- One step; `none` if the step cannot be taken now. -/
def step (e : Event) : Option State :=
  match e with
  | .holdEnter c | .holdChoose c | .holdReturn c | .releToQuiesce c | .releToSync c _ =>
    holdStep ncpus st c e
  | .quiesceStart | .quiesceLock | .quiesceOpen | .quiesceUnlock | .quiesceUnlocked
  | .quiesceDrain | .quiesceHandOff | .quiesceExit => quiesceStep ncpus st e
  | .syncWake _ | .syncPrompt | .syncTake | .spaSync | .syncDone | .syncExit => syncStep st e
  | _ => otherStep st e

end Steps

/-- The states of the machine of a pool that starts with group `first`. -/
inductive Reachable (ncpus first : ℕ) : State → Prop
  | init : Reachable ncpus first ⟨txgInit first, fun _ _ => 0, []⟩
  | step {st st' : State} {e : Event} : Reachable ncpus first st → step ncpus st e = some st' →
      Reachable ncpus first st'

/-- A sequence of steps. -/
def run (ncpus : ℕ) (st : State) (es : List Event) : Option State :=
  es.foldlM (step ncpus) st

theorem Reachable.run {ncpus first : ℕ} {st st' : State} {es : List Event}
    (h : Reachable ncpus first st) (hr : run ncpus st es = some st') :
    Reachable ncpus first st' := by
  induction es generalizing st with
  | nil =>
    cases hr
    exact h
  | cons e es ih =>
    simp only [Txg.run, List.foldlM_cons, Option.bind_eq_bind, Option.bind_eq_some_iff] at hr
    obtain ⟨st1, h1, h2⟩ := hr
    exact ih (h.step h1) h2

end Osol.Zfs.Txg
