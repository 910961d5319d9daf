import Osol.Rwlock.Handoff

/-!
# Runs of a readers/writer lock

Every access keeps the invariant, and so do the runs. What the lock promises its users is read off
the invariant.
-/

namespace Osol.Rwlock

open Function List Sys Fields

variable {T : Type} {s s' : Sys T} {f f' : Fields} {t : T} {p : Pc} [Fintype T] {th : Threads T}

/-! ## Around the accesses -/

theorem Inv.priChange {pri : T → ℕ} {writers readers : List T} (hi : Inv th s f)
    (hc : s.chain = none) (hw : writers.Perm s.writers) (hr : readers.Perm s.readers) :
    Inv th { s with pri := pri, writers := writers, readers := readers } f := by
  set s' : Sys T := { s with pri := pri, writers := writers, readers := readers } with hs'
  have hqueue : ∀ q, (s'.queue q).Perm (s.queue q) := fun q => by
    cases q with
    | reader => exact hr
    | writer => exact hw
  have hw0 : ∀ q, s.waking q = 0 := waking_none hc
  have hw' : ∀ q, s'.waking q = 0 := waking_none hc
  have hb : s'.blocking = s.blocking := blocking_congr rfl fun _ _ => rfl
  have hnil : ∀ q, s'.remaining q = [] ↔ s.remaining q = [] := fun q => by
    rw [remaining_of_waking hw', remaining_of_waking hw0]
    exact ⟨fun h => Perm.nil_eq (h ▸ hqueue q) ▸ rfl, fun h => Perm.eq_nil (h ▸ hqueue q)⟩
  refine ⟨hi.word, hi.shape, fun t rw => ?_, fun rw => ?_, hi.chain, fun q => ?_, ?_, ?_, hi.held,
    hi.pend, hi.one, fun u => ?_⟩
  · rw [(hqueue rw).mem_iff]
    exact hi.mem t rw
  · exact (hqueue rw).nodup_iff.2 (hi.nodup rw)
  · rw [hw']
    exact Nat.zero_le _
  · rw [hi.waiters, Sys.Waiters, Sys.Waiters, hb]
    simp only [ne_eq, hnil]
  · rw [hi.wanted, Sys.Wanted, Sys.Wanted, hb]
    simp only [ne_eq, hnil]
  · exact (hi.ok u).congr
      (fun _ _ => iff_of_false (not_granted_of_waking hw0 u) (not_granted_of_waking hw' u))
      (fun _ h => h) (fun _ _ h1 h2 => ⟨h1, h2⟩)

theorem inv_init (th : Threads T) (pri : T → ℕ) : Inv th (Sys.init pri) ⟨0, false, false, false⟩ := by
  have hcount : readersCount (fun _ : T => none) = 0 := readersCount_eq_zero.2 fun _ => by simp
  refine ⟨rfl, ?_, ?_, ?_, ?_, ?_, ?_, ?_, by simp, by simp, ?_, ?_⟩
  · rw [← hcount]
    exact .read false false fun _ => by simp [Sys.init]
  · intro t rw
    cases rw <;> simp [Sys.queue, Sys.init]
  · intro rw
    cases rw <;> exact nodup_nil
  · intro t
    exact iff_of_false (by simp [Sys.init]) Bool.false_ne_true
  · intro q
    exact Nat.zero_le _
  · simp [Sys.Waiters, Sys.remaining, Sys.queue, Sys.init, Sys.blocking]
  · simp [Sys.Wanted, Sys.remaining, Sys.queue, Sys.init, Sys.blocking]
  · intro d d' h
    exact absurd h Bool.false_ne_true
  · exact fun t => rfl

theorem Inv.of_some {s1 : Sys T} (h : some s1 = some s') (hi : ∃ f', Inv th s1 f') :
    ∃ f', Inv th s' f' := by
  rwa [← Option.some.inj h]

/-! ## Every access -/

variable [DecidableEq T]

theorem Inv.call {own : Option Krw} {call : Call} (hi : Inv th s f) (hpc : s.pc t = .idle own)
    (h : s.step th t call = some s') : ∃ f', Inv th s' f' := by
  have hok := hi.okAt hpc
  rw [Sys.step, hpc] at h
  cases call with
  | enter rw =>
    cases own with
    | none =>
      cases h
      exact hi.goPlain hpc rfl rfl hok
    | some m => simp at h
  | tryenter rw =>
    cases own with
    | none =>
      cases h
      exact hi.goPlain hpc rfl rfl hok
    | some m => simp at h
  | exit =>
    cases own with
    | none => simp at h
    | some m =>
      cases h
      refine hi.goPlain hpc rfl rfl ?_
      rw [show s.hold t = some m from hok]
      simp [PcOk]
  | downgrade =>
    rcases own with _ | _ | _
    · simp at h
    · simp at h
    · cases h
      exact hi.goPlain hpc rfl rfl hok
  | tryupgrade =>
    rcases own with _ | _ | _
    · simp at h
    · cases h
      exact hi.goPlain hpc rfl rfl hok
    · simp at h

theorem Inv.step {call : Call} (hi : Inv th s f) (h : s.step th t call = some s') : ∃ f', Inv th s' f' := by
  have hok := hi.ok t
  have hstep := h
  rw [Sys.step] at hstep
  cases hpc : s.pc t with rw [hpc] at hok hstep
  | idle own => exact hi.call hpc h
  | enter rw => exact of_some hstep (hi.enter hpc)
  | enterCas rw old => exact of_some hstep (hi.enterCas hpc)
  | enterLookup rw => exact hi.lookup hpc hstep hok rfl rfl rfl rfl
  | enterTest rw => exact of_some hstep (hi.enterTest hpc)
  | enterWait rw old => exact of_some hstep (hi.enterWait hpc)
  | enterAgain rw => exact of_some hstep (hi.enterAgain hpc)
  | enterBlock rw => exact of_some hstep ⟨f, hi.enterBlock hpc⟩
  | asleep rw => simp at hstep
  | exit => exact of_some hstep (hi.exit hpc)
  | exitLoop lv => exact of_some hstep (hi.exitLoop hpc)
  | exitCas lv old new => exact of_some hstep (hi.exitCas hpc)
  | exitLookup old => exact hi.lookup hpc hstep hok rfl rfl rfl rfl
  | exitHandoff old => exact of_some hstep (hi.exitHandoff hpc)
  | tryenter rw => exact hi.tryenter hpc h
  | tryenterCas old => exact of_some hstep (hi.tryenterCas hpc)
  | downgrade => exact of_some hstep (hi.downgrade hpc)
  | downgradeAdd => exact of_some hstep (hi.downgradeAdd hpc)
  | downgradeLookup => exact hi.lookup hpc hstep hok rfl rfl rfl rfl
  | downgradeHandoff => exact of_some hstep (hi.downgradeHandoff hpc)
  | tryupgrade => exact of_some hstep (hi.tryupgrade hpc)
  | tryupgradeCas old new => exact of_some hstep (hi.tryupgradeCas hpc)
  | wakeup q n own => exact of_some hstep ⟨f, hi.wakeup hpc⟩
  | panic => exact hok.elim

theorem inv_of_reachable (h : Sys.Reachable th s) : ∃ f, Inv th s f := by
  induction h with
  | init pri => exact ⟨_, inv_init th pri⟩
  | step _ hstep ih =>
    obtain ⟨f, hi⟩ := ih
    cases hstep with
    | run t call h => exact hi.step h
    | pri pri writers readers hc hw hr => exact ⟨f, hi.priChange hc hw hr⟩

/-! ## What the users of the lock rely on -/

/-- The threads that hold a lock, its word and its queues. -/
structure Safe (th : Threads T) (s : Sys T) : Prop where
  /-- A writer is alone. -/
  exclusive : ∀ t u, s.hold t = some .writer → u ≠ t → s.hold u = none
  /-- A lock that no writer holds counts its readers. -/
  count : s.word &&& rwWriteLocked = 0 →
    s.word &&& rwLocked = BitVec.ofNat 64 (readersCount s.hold) * rwReadLock ∧ ∀ t, s.hold t ≠ some .writer
  /-- A lock that a writer holds names it. -/
  owner : s.word &&& rwWriteLocked ≠ 0 → ∃ t, s.hold t = some .writer ∧ s.word &&& rwOwner = th.addr t
  hasWaiters : s.chain = none → (s.word &&& rwHasWaiters ≠ 0 ↔ ∃ t rw, t ∈ s.queue rw)
  writeWanted : s.chain = none → (s.word &&& rwWriteWanted ≠ 0 ↔ ∃ t, t ∈ s.queue .writer)
  /-- A lock with queued threads is held. -/
  held : ∀ t rw, t ∈ s.queue rw → ∃ u, s.hold u ≠ none
  /-- A queue holds the threads that sleep on it. -/
  queued : ∀ t rw, t ∈ s.queue rw ↔ s.pc t = .asleep rw
  /-- Outside of the functions a thread holds the lock as they said. -/
  users : ∀ t own, s.pc t = .idle own → s.hold t = own
  /-- No thread gives up. -/
  sound : ∀ t, s.pc t ≠ .panic

omit [DecidableEq T] in
theorem Inv.safe (hi : Inv th s f) : Safe th s where
  exclusive t u ht hu := (hi.shape.of_writer ht).2 u hu
  count h := by
    rw [hi.word, and_writeLocked hi.fits] at h
    rw [hi.word]
    have hfits := hi.fits
    cases hi.shape with
    | write o ww hw _ _ => exact absurd h (by simp [Fields.owned])
    | read ww hw hno =>
      refine ⟨BitVec.eq_of_toNat_eq ?_, hno⟩
      have hfits' : (⟨readersCount s.hold, false, false, false⟩ : Fields).Fits := hfits
      rw [toNat_and_locked hfits, reads_eq, toNat_word hfits']
      rfl
  owner h := by
    rw [hi.word, Ne, and_writeLocked hi.fits] at h
    have hshape := hi.shape
    cases hshape with
    | write o ww hw ho _ => exact ⟨o, ho, hi.and_owner ho⟩
    | read ww hw hno => exact absurd rfl h
  hasWaiters hc := by
    have hw := waking_none hc
    rw [hi.word, Ne, and_waiters hi.fits, Bool.not_eq_false, hi.waiters, Sys.Waiters,
      blocking_none hc, remaining_of_waking hw, remaining_of_waking hw]
    constructor
    · rintro (h | h | h)
      · exact (exists_mem_of_ne_nil _ h).imp fun t ht => ⟨_, ht⟩
      · exact (exists_mem_of_ne_nil _ h).imp fun t ht => ⟨_, ht⟩
      · exact absurd rfl h
    · rintro ⟨t, rw, ht⟩
      cases rw with
      | writer => exact .inl (ne_nil_of_mem ht)
      | reader => exact .inr (.inl (ne_nil_of_mem ht))
  writeWanted hc := by
    have hw := waking_none hc
    rw [hi.word, Ne, and_writeWanted hi.fits, Bool.not_eq_false, hi.wanted, Sys.Wanted,
      blocking_none hc, remaining_of_waking hw]
    constructor
    · rintro (h | h)
      · exact exists_mem_of_ne_nil _ h
      · simp at h
    · rintro ⟨t, ht⟩
      exact .inl (ne_nil_of_mem ht)
  held t rw ht := by
    by_cases hg : s.granted t
    · have hok := hi.ok t
      rw [(hi.mem t rw).1 ht] at hok
      exact ⟨t, by rw [hok.1 hg]; simp⟩
    have hleft : t ∈ s.remaining rw := by
      rw [← take_append_drop (s.waking rw) (s.queue rw), mem_append] at ht
      exact ht.resolve_left fun h => hg ⟨rw, h⟩
    have hwait : f.waiters = true := hi.waiters.2 (by
      cases rw with
      | writer => exact .inl (ne_nil_of_mem hleft)
      | reader => exact .inr (.inl (ne_nil_of_mem hleft)))
    by_contra hnone
    have hnone' : ∀ u, s.hold u = none := fun u => by
      by_contra h
      exact hnone ⟨u, h⟩
    have hpos := hi.held hwait
    cases hi.shape with
    | write o ww hw ho _ => exact hnone ⟨o, by rw [ho]; simp⟩
    | read ww hw _ =>
      have h0 : readersCount s.hold = 0 := readersCount_eq_zero.2 fun u => by rw [hnone' u]; simp
      exact absurd hpos (by simp [h0])
  queued := hi.mem
  users t own h := by
    have hok := hi.ok t
    rwa [h] at hok
  sound t h := by
    have hok := hi.ok t
    rwa [h] at hok

namespace Sys

/-- Only `turnstile_wakeup` changes where another thread is. -/
theorem step_pc {u : T} {call : Call} (h : s.step th u call = some s') (ht : t ≠ u) :
    s'.pc t = s.pc t ∨ s'.pc t = returned (s.pc t) := by
  have hgo : ∀ p, (s.go u p).pc t = s.pc t := fun p => update_of_ne ht _ _
  have hmove : ∀ w m p, (s.move u w m p).pc t = s.pc t := fun w m p => update_of_ne ht _ _
  have hblock : ∀ rw, (s.block u rw).pc t = s.pc t := fun rw => by rw [(pc_block s u rw).1, update_of_ne ht]
  have hwake : ∀ q n own, (s.wake u q n own).pc t = s.pc t ∨
    (s.wake u q n own).pc t = returned (s.pc t) := fun q n own => by
    rw [(pc_wake s u q n own).1, update_of_ne ht]
    split
    · exact .inr rfl
    · exact .inl rfl
  have hlookup : ∀ p, s.lookup u p = some s' → s'.pc t = s.pc t := fun p h => by
    unfold lookup at h
    split at h
    · cases h
      exact hgo p
    · simp at h
  have hhandoff : ∀ old, (handoff th s u old).pc t = s.pc t := fun old => by
    unfold handoff
    dsimp only
    split
    · exact hgo _
    · split <;> exact hgo _
  have hcas : ∀ (c : Prop) [Decidable c] w m p p', (if c then s.move u w m p else s.go u p').pc t =
    s.pc t := by
    intro c _ w m p p'
    split
    · exact hmove w m p
    · exact hgo p'
  unfold step at h
  cases hpc : s.pc u with rw [hpc] at h
  | idle own =>
    dsimp only at h
    split at h
    all_goals first | (cases h; exact .inl (hgo _)) | simp at h
  | tryenter rw =>
    cases rw with
    | reader => cases h; exact .inl (hgo _)
    | writer => cases h; exact .inl (hcas _ _ _ _ _)
  | enterWait rw old =>
    cases h
    refine .inl ?_
    split <;> exact hgo _
  | enterCas | exitCas | tryenterCas | tryupgradeCas => cases h; exact .inl (hcas _ _ _ _ _)
  | enterLookup | exitLookup | downgradeLookup => exact .inl (hlookup _ h)
  | downgradeAdd => cases h; exact .inl (hmove _ _ _)
  | enterBlock rw => cases h; exact .inl (hblock rw)
  | exitHandoff old => cases h; exact .inl (hhandoff old)
  | wakeup q n own => cases h; exact hwake q n own
  | asleep | panic => simp at h
  | _ => cases h; exact .inl (hgo _)

theorem pc_of_asleep {rw : Krw} (h : Step th s s') (ht : s.pc t = .asleep rw) :
    s'.pc t = .asleep rw ∨ s'.pc t = .idle (some rw) := by
  cases h with
  | run u call h =>
    by_cases hu : t = u
    · subst hu
      rw [step, ht] at h
      simp at h
    · rcases step_pc h hu with h | h
      · exact .inl (h.trans ht)
      · exact .inr (by rw [h, ht]; rfl)
  | pri pri writers readers _ _ _ => exact .inl ht

end Sys

/-- The protocol of a readers/writer lock: in every state of every run the holders, the word and the
queues agree, and a thread that returns from `turnstile_block` holds the lock in the mode it asked
for. -/
theorem rwlock_protocol (h : Sys.Reachable th s) :
    Safe th s ∧ ∀ s' t rw, Sys.Step th s s' → s.pc t = .asleep rw → s'.pc t ≠ .asleep rw →
      s'.pc t = .idle (some rw) ∧ s'.hold t = some rw := by
  obtain ⟨f, hi⟩ := inv_of_reachable h
  refine ⟨hi.safe, fun s' t rw hstep ht hne => ?_⟩
  obtain ⟨f', hi'⟩ := inv_of_reachable (h.step hstep)
  have hpc := (Sys.pc_of_asleep hstep ht).resolve_left hne
  exact ⟨hpc, hi'.safe.users t _ hpc⟩

def twoThreads : Threads (Fin 2) where
  addr t := .ofNat _ (32 + 16 * t)
  injective := by decide
  aligned := by decide
  above := by decide

def Sys.run (th : Threads T) : Sys T → List (T × Call) → Sys T
  | s, [] => s
  | s, (t, call) :: l => match s.step th t call with
    | none => s
    | some s' => s'.run th l

theorem Sys.reachable_run (h : Sys.Reachable th s) (l : List (T × Call)) :
    Sys.Reachable th (s.run th l) := by
  induction l generalizing s with
  | nil => exact h
  | cons c l ih =>
    unfold Sys.run
    split
    · exact h
    · rename_i s' hs'
      exact ih (h.step (.run c.1 c.2 hs'))

/-- One thread is a reader, and the other one sleeps until it may write. -/
def waitingWriter (r w : Fin 2) : Sys (Fin 2) :=
  (Sys.init fun _ => 0).run twoThreads
    ([(r, .enter .reader), (r, .exit), (r, .exit), (w, .enter .writer), (w, .exit), (w, .exit),
      (w, .exit), (w, .exit), (w, .exit)])

theorem rwlock_protocol_waiting :
    (waitingWriter 0 1).writers = [1] ∧ Safe twoThreads (waitingWriter 0 1) :=
  ⟨by decide +kernel, (rwlock_protocol (reachable_run (.init fun _ => 0) _)).1⟩

end Osol.Rwlock
