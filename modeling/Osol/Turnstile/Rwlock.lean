import Osol.Turnstile.Priority
import Osol.Rwlock.Handoff
import Osol.Lib.Follow

/-!
# Readers/writer locks on turnstiles

Any number of locks, with `rw_enter_sleep` and `rw_exit_wakeup` as one step each, up to the end of
`turnstile_block` and `turnstile_wakeup`. A lock is the fields of its word; who holds it as a reader
is only a count.
-/

namespace Osol.Turnstile

open Rwlock Function Fields Option

variable {T L K B : Type}

/-! ## Locks -/

/-- The word of a lock: the writer that holds it, or the number of readers, and the waiting bits. -/
structure Lock (T : Type) where
  owner : Option T
  count : ℕ
  wanted : Bool
  waiters : Bool
  deriving DecidableEq

namespace Lock

def unheld : Lock T := ⟨none, 0, false, false⟩

variable (lk : Lock T)

/-- The lock is busy for a thread that asks for this mode. -/
def busy : Krw → Bool
  | .reader => lk.owner.isSome || lk.wanted
  | .writer => lk.owner.isSome || lk.count != 0

/-- The word plus `lock_value`. -/
def enter (t : T) : Krw → Lock T
  | .reader => { lk with count := lk.count + 1 }
  | .writer => { lk with owner := some t }

def wait : Krw → Lock T
  | .reader => { lk with waiters := true }
  | .writer => { lk with waiters := true, wanted := true }

/-- The word minus `lock_value`. -/
def exit : Lock T :=
  if lk.owner.isSome then { lk with owner := none } else { lk with count := lk.count - 1 }

def last : Bool := lk.owner.isNone && lk.count == 0 && lk.waiters

end Lock

/-- The queue for a mode. -/
def qnum : Krw → Qnum
  | .reader => .reader
  | .writer => .writer

/-- The turnstiles and the locks. -/
structure RwSys (T L K B : Type) where
  ts : Sys T L K B
  lock : L → Lock T

namespace RwSys

def rwOwner (lock : L → Lock T) (l : L) : Option T := (lock l).owner

def rwReadersToWake (s : Sys T L K B) (k : K) : ℕ :=
  let wpri : ℤ := match (s.ts k).sleepq .writer with
    | [] => -1
    | nextWriter :: _ => s.dispPrio nextWriter
  (((s.ts k).sleepq .reader).takeWhile fun nextReader => ¬ (s.dispPrio nextReader : ℤ) < wpri).length

variable [DecidableEq T] [DecidableEq L] [DecidableEq K] [DecidableEq B]

/-- `rw_enter_sleep`, with a bound for the walk along a blocking chain. -/
def rwEnterSleep (env : Env T L B) (fuel : ℕ) (s : RwSys T L K B) (t : T) (l : L) (rw : Krw) :
    Except Panic (RwSys T L K B) :=
  if (s.lock l).busy rw then
    if (s.lock l).owner = some t then .error .rwlock
    else
      let lock := update s.lock l ((s.lock l).wait rw)
      match s.ts.block env (rwOwner lock) fuel t (qnum rw) l with
      | .error e => .error e
      | .ok ts => .ok ⟨ts, lock⟩
  else .ok { s with lock := update s.lock l ((s.lock l).enter t rw) }

/-- The final exit of a lock that has waiters. -/
def handoff (env : Env T L B) (s : RwSys T L K B) (l : L) (k : K) : Except Panic (RwSys T L K B) :=
  let nreaders := rwReadersToWake s.ts k
  if (s.lock l).owner.isSome ∧ 0 < nreaders then
    let new := ⟨none, nreaders, (s.ts.ts k).sleepq .writer ≠ [], (s.ts.ts k).waiters > nreaders⟩
    match s.ts.wakeup env k .reader nreaders none with
    | .error e => .error e
    | .ok ts => .ok ⟨ts, update s.lock l new⟩
  else
    match (s.ts.ts k).sleepq .writer with
    | [] => .error .fault
    | nextWriter :: link =>
      let new := ⟨some nextWriter, 0, link ≠ [], (s.ts.ts k).waiters > 1⟩
      match s.ts.wakeup env k .writer 1 (some nextWriter) with
      | .error e => .error e
      | .ok ts => .ok ⟨ts, update s.lock l new⟩

def rwExitWakeup (env : Env T L B) (s : RwSys T L K B) (t : T) (l : L) : Except Panic (RwSys T L K B) :=
  if (s.lock l).owner.isSome ∧ (s.lock l).owner ≠ some t then .error .rwlock
  else if (s.lock l).owner.isNone ∧ (s.lock l).count = 0 then .error .rwlock
  else if (s.lock l).exit.last then
    match s.ts.lookup env l with
    | none => .error .fault
    | some k => handoff env s l k
  else .ok { s with lock := update s.lock l (s.lock l).exit }

end RwSys

/-! ## Words -/

namespace Lock

variable [Fintype T] (th : Threads T)

def fields (lk : Lock T) : Fields :=
  match lk.owner with
  | none => ⟨lk.count, false, lk.wanted, lk.waiters⟩
  | some t => Fields.owned (th.addr t) lk.wanted lk.waiters

variable {lk : Lock T} {th}

theorem fields_count : (lk.fields th).count = 0 ↔ lk.owner = none ∧ lk.count = 0 := by
  unfold fields
  cases lk.owner with
  | none => simp
  | some t => exact iff_of_false (Shape.owner_pos th t).ne_bot nofun

theorem and_lockBusy (hf : (lk.fields th).Fits) (rw : Krw) :
    (lk.fields th).word &&& lockBusy rw = 0 ↔ lk.busy rw = false := by
  cases rw with
  | reader =>
    rw [lockBusy, and_writeClaimed hf]
    unfold fields busy
    cases lk.owner <;> simp [Fields.owned]
  | writer =>
    rw [lockBusy, and_locked hf, fields_count]
    simp [busy]

theorem and_writeLocked (hf : (lk.fields th).Fits) :
    (lk.fields th).word &&& rwWriteLocked ≠ 0 ↔ lk.owner.isSome := by
  rw [ne_eq, Fields.and_writeLocked hf, fields]
  cases lk.owner <;> simp [owned]

theorem word_enter {t : T} {rw : Krw} (h : lk.busy rw = false) :
    (lk.fields th).word + lockValue (th.addr t) rw = ((lk.enter t rw).fields th).word := by
  cases rw with
  | reader =>
    have hnone : lk.owner = none := by simpa [busy] using (Bool.or_eq_false_iff.1 h).1
    simp only [fields, enter, hnone, lockValue]
    exact word_add_read _
  | writer =>
    obtain ⟨ho, hc⟩ := by simpa [busy] using h
    simp only [fields, enter, ho, hc, lockValue]
    exact word_add_write (th.aligned t) _ _

theorem word_wait (hf : (lk.fields th).Fits) (rw : Krw) :
    (lk.fields th).word ||| lockWait rw = ((lk.wait rw).fields th).word := by
  rw [word_or_lockWait hf]
  unfold fields
  cases rw <;> cases ho : lk.owner <;> simp [wait, ho, Fields.owned]

theorem word_exit {t : T} {rw : Krw} (hw : rw = .writer → lk.owner = some t ∧ lk.count = 0)
    (hr : rw = .reader → lk.owner = none ∧ 0 < lk.count) :
    (lk.fields th).word - lockValue (th.addr t) rw = (lk.exit.fields th).word := by
  cases rw with
  | reader =>
    obtain ⟨ho, hc⟩ := hr rfl
    simp only [fields, exit, ho, lockValue, isSome_none, Bool.false_eq_true, if_false]
    exact word_sub_read hc
  | writer =>
    obtain ⟨ho, hc⟩ := hw rfl
    simp only [fields, exit, ho, hc, lockValue, isSome_some, if_true]
    exact word_sub_write (th.aligned t) _ _

theorem fits_exit (hf : (lk.fields th).Fits) (hone : lk.owner ≠ none → lk.count = 0) :
    (lk.exit.fields th).Fits := by
  unfold exit
  cases ho : lk.owner with
  | none => exact (Nat.sub_le _ _).trans_lt (by simpa [fields, ho, Fits] using hf)
  | some t => simp [fields, Fits, hone (by simp [ho])]

theorem and_last (hf : (lk.fields th).Fits) :
    (lk.fields th).word &&& (rwLocked ||| rwHasWaiters) = rwHasWaiters ↔ lk.last = true := by
  rw [and_locked_waiters hf, fields_count]
  have hwait : (lk.fields th).waiters = lk.waiters := by
    unfold fields
    cases lk.owner <;> rfl
  simp [last, hwait]

end Lock

/-- A turnstile, as the protocol of one lock has it. -/
structure Sees (ts : Sys T L K B) (k : K) (r : Rwlock.Sys T) : Prop where
  writers : r.writers = (ts.ts k).sleepq .writer
  readers : r.readers = (ts.ts k).sleepq .reader
  waiters : r.tsWaiters = (ts.ts k).waiters
  pri : r.pri = ts.dispPrio

theorem Sees.readersToWake {ts : Sys T L K B} {k : K} {r : Rwlock.Sys T} (h : Sees ts k r) :
    r.rwReadersToWake = RwSys.rwReadersToWake ts k := by
  rw [Rwlock.Sys.rwReadersToWake, h.writers, h.readers, h.pri]
  rfl

namespace RwSys

variable [Fintype T] (th : Threads T)

/-- `rw_wwwh` of a lock. -/
def word (s : RwSys T L K B) (l : L) : Word := ((s.lock l).fields th).word

variable {th} [DecidableEq T] [DecidableEq L] [DecidableEq K] [DecidableEq B] {env : Env T L B}
  {s s' : RwSys T L K B} {t : T} {l : L} {rw : Krw} {k : K}

/-- The word that `rw_enter_sleep` leaves behind. -/
def EnterWord (th : Threads T) (s s' : RwSys T L K B) (t : T) (l : L) (rw : Krw) : Prop :=
  let old := s.word th l
  s'.word th l = if old &&& lockBusy rw = 0 then old + lockValue (th.addr t) rw else old ||| lockWait rw

/-- The word that `rw_exit_wakeup` leaves behind: a hand-off is that of the protocol of one lock. -/
def ExitWord (th : Threads T) (env : Env T L B) (s s' : RwSys T L K B) (t : T) (l : L) : Prop :=
  let old := s.word th l
  let new := old - lockValue (th.addr t) (if old &&& rwWriteLocked ≠ 0 then .writer else .reader)
  if new &&& (rwLocked ||| rwHasWaiters) ≠ rwHasWaiters then s'.word th l = new
  else ∃ k, s.ts.lookup env l = some k ∧ ∀ r, Sees s.ts k r → r.rwReadersToWake < 2 ^ 61 →
    s'.word th l = (Rwlock.Sys.handoff th r t old).word

theorem word_rwEnterSleep {fuel : ℕ} (hf : ((s.lock l).fields th).Fits)
    (heq : rwEnterSleep env fuel s t l rw = .ok s') : EnterWord th s s' t l rw := by
  unfold rwEnterSleep at heq
  unfold EnterWord word
  dsimp only
  cases hb : (s.lock l).busy rw with
  | true =>
    rw [if_neg (mt (Lock.and_lockBusy hf rw).1 (by simp [hb])), Lock.word_wait hf]
    rw [if_pos hb] at heq
    split at heq
    · simp at heq
    dsimp only at heq
    split at heq
    · simp at heq
    · simp [← Except.ok.inj heq]
  | false =>
    rw [if_pos ((Lock.and_lockBusy hf rw).2 hb), Lock.word_enter hb]
    rw [if_neg (by simp [hb])] at heq
    simp [← Except.ok.inj heq]

section

variable (hf : ((s.lock l).fields th).Fits)
include hf

theorem word_handoff {r : Rwlock.Sys T} (hr : Sees s.ts k r) (hn : r.rwReadersToWake < 2 ^ 61)
    (heq : handoff env s l k = .ok s') :
    s'.word th l = (Rwlock.Sys.handoff th r t (s.word th l)).word := by
  unfold handoff at heq
  unfold Rwlock.Sys.handoff
  rw [hr.readersToWake] at hn ⊢
  rw [hr.waiters, hr.writers]
  dsimp only at heq ⊢
  split at heq
  · rename_i hreaders
    rw [if_pos ⟨(Lock.and_writeLocked hf).2 hreaders.1, hreaders.2⟩]
    split at heq
    · simp at heq
    · have hfits : (⟨rwReadersToWake s.ts k, false, false, false⟩ : Fields).Fits := hn
      rw [← Except.ok.inj heq, word_or_ite hfits _ _ (reads_eq _)]
      simp [word, Lock.fields]
  · rename_i hreaders
    rw [if_neg fun h => hreaders ⟨(Lock.and_writeLocked hf).1 h.1, h.2⟩]
    rcases hq : (s.ts.ts k).sleepq .writer with _ | ⟨w, link⟩ <;> rw [hq] at heq
    · simp at heq
    dsimp only at heq ⊢
    split at heq
    · simp at heq
    · rw [← Except.ok.inj heq,
        word_or_ite (fits_owned _ false false) _ _ (writeLock_eq_word (th.aligned w))]
      simp [word, Lock.fields, owned]

theorem word_rwExitWakeup (hone : (s.lock l).owner ≠ none → (s.lock l).count = 0)
    (heq : rwExitWakeup env s t l = .ok s') : ExitWord th env s s' t l := by
  unfold ExitWord
  intro old new
  unfold rwExitWakeup at heq
  split at heq
  · simp at heq
  rename_i hself
  split at heq
  · simp at heq
  rename_i hheld
  have hlocked : s.word th l &&& rwWriteLocked ≠ 0 ↔ _ := Lock.and_writeLocked hf
  have hnew : new = ((s.lock l).exit.fields th).word := by
    refine Lock.word_exit (fun hw => ?_) fun hr => ?_
    · have hsome := hlocked.1 fun h => by rw [if_neg (not_not.2 h)] at hw; cases hw
      exact ⟨by simpa [hsome] using hself, hone (isSome_iff_ne_none.1 hsome)⟩
    · have hnone : (s.lock l).owner = none := by
        by_contra h
        rw [if_pos (hlocked.2 (isSome_iff_ne_none.2 h))] at hr
        cases hr
      exact ⟨hnone, Nat.pos_of_ne_zero (by simpa [hnone] using hheld)⟩
  have hlast := Lock.and_last (Lock.fits_exit hf hone)
  rw [hnew]
  split at heq
  · rename_i h
    rw [if_neg (not_not.2 (hlast.2 h))]
    split at heq
    · simp at heq
    · rename_i k hk
      exact ⟨k, hk, fun r hr hn => word_handoff hf hr hn heq⟩
  · rename_i h
    rw [if_pos (mt hlast.1 h), ← Except.ok.inj heq]
    simp [word]

end

end RwSys

end Osol.Turnstile
