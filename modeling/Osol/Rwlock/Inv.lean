import Osol.Rwlock.Basic

/-!
# What holds of a readers/writer lock

The word says who holds the lock, and its two waiting bits say who is queued once the thread that
holds the lock of the chain is through. A lock that readers hold and that only readers wait for is
one whose writer has just downgraded and is about to wake them.
-/

namespace Osol.Rwlock

open Function Finset

variable {T : Type} [Fintype T]

/-! ## Holders -/

def readersCount (hold : T → Option Krw) : ℕ := (Finset.univ.filter fun t => hold t = some .reader).card

/-- The count and the owner that go with the holders. -/
inductive Shape (th : Threads T) (hold : T → Option Krw) : Fields → Prop
  | write (o : T) (ww hw : Bool) : hold o = some .writer → (∀ t, t ≠ o → hold t = none) →
      Shape th hold (Fields.owned (th.addr o) ww hw)
  | read (ww hw : Bool) : (∀ t, hold t ≠ some .writer) → Shape th hold ⟨readersCount hold, false, ww, hw⟩

theorem readersCount_le (hold : T → Option Krw) : readersCount hold ≤ Fintype.card T := card_le_univ _

theorem readersCount_eq_zero {hold : T → Option Krw} :
    readersCount hold = 0 ↔ ∀ t, hold t ≠ some .reader := by
  unfold readersCount
  simp

theorem readersCount_pos {hold : T → Option Krw} {t : T} (h : hold t = some .reader) :
    0 < readersCount hold :=
  Nat.pos_of_ne_zero fun h0 => readersCount_eq_zero.1 h0 t h

theorem readersCount_eq_one {hold : T → Option Krw} {t u : T} (h : hold t = some .reader)
    (h1 : readersCount hold = 1) (hu : hold u = some .reader) : u = t :=
  Finset.card_le_one.1 h1.le u (by simpa using hu) t (by simpa using h)

namespace Shape

variable {th : Threads T} {hold : T → Option Krw} {f : Fields} {t : T}

theorem owner_pos (th : Threads T) (o : T) : Fintype.card T < (th.addr o).toNat / 8 := by
  have := th.above o
  have := th.aligned o
  omega

section

variable (h : Shape th hold f)
include h

theorem fits : f.Fits := by
  cases h with
  | write o ww hw _ _ => exact Fields.fits_owned _ _ _
  | read ww hw _ =>
    change readersCount hold < 2 ^ 61
    rcases Nat.eq_zero_or_pos (readersCount hold) with h0 | hpos
    · omega
    · obtain ⟨t, -⟩ := Finset.card_pos.1 hpos
      have hle := readersCount_le hold
      have := th.above t
      omega

theorem of_writer (ht : hold t = some .writer) :
    (∃ ww hw, f = Fields.owned (th.addr t) ww hw) ∧ ∀ u, u ≠ t → hold u = none := by
  cases h with
  | write o ww hw ho hother =>
    have heq : t = o := by
      by_contra hne
      rw [hother t hne] at ht
      simp at ht
    subst heq
    exact ⟨⟨ww, hw, rfl⟩, hother⟩
  | read ww hw hno => exact absurd ht (hno t)

theorem of_reader (ht : hold t = some .reader) :
    (∃ ww hw, f = ⟨readersCount hold, false, ww, hw⟩) ∧ ∀ u, hold u ≠ some .writer := by
  cases h with
  | write o ww hw ho hother =>
    have hne : t ≠ o := by
      rintro rfl
      rw [ho] at ht
      simp at ht
    rw [hother t hne] at ht
    simp at ht
  | read ww hw hno => exact ⟨⟨ww, hw, rfl⟩, hno⟩

theorem alone (ht : hold t = some .reader) (h1 : f.count = 1) : ∀ u, u ≠ t → hold u = none := by
  obtain ⟨⟨ww, hw, rfl⟩, hno⟩ := h.of_reader ht
  intro u hu
  cases hu' : hold u with
  | none => rfl
  | some m =>
    cases m with
    | reader => exact absurd (readersCount_eq_one ht h1 hu') hu
    | writer => exact absurd hu' (hno u)

theorem count_pos (ht : hold t ≠ none) : 0 < f.count := by
  obtain ⟨m, hm⟩ := Option.ne_none_iff_exists'.1 ht
  cases m with
  | writer =>
    obtain ⟨⟨ww, hw, rfl⟩, -⟩ := h.of_writer hm
    exact (Nat.zero_le _).trans_lt (owner_pos th t)
  | reader =>
    obtain ⟨⟨ww, hw, rfl⟩, -⟩ := h.of_reader hm
    exact readersCount_pos hm

theorem of_count_eq_zero (h0 : f.count = 0) : (∃ ww hw, f = ⟨0, false, ww, hw⟩) ∧ ∀ t, hold t = none := by
  have hnone : ∀ t, hold t = none := fun t => by
    by_contra hne
    have := h.count_pos hne
    omega
  cases h with
  | write o ww hw ho hother => exact absurd (hnone o) (by simp [ho])
  | read ww hw hno => exact ⟨⟨ww, hw, by rw [show readersCount hold = 0 from h0]⟩, hnone⟩

end

end Shape

/-! ## Changes of holders -/

variable [DecidableEq T]

theorem readersCount_add {hold : T → Option Krw} {t : T} (h : hold t ≠ some .reader) :
    readersCount (update hold t (some .reader)) = readersCount hold + 1 := by
  unfold readersCount
  rw [← card_insert_of_notMem (by simpa using h)]
  congr 1
  ext u
  by_cases hu : u = t
  · subst hu
    simp
  · simp [hu]

theorem readersCount_remove {hold : T → Option Krw} {t : T} {m : Option Krw} (h : hold t = some .reader)
    (hm : m ≠ some .reader) : readersCount (update hold t m) + 1 = readersCount hold := by
  have hback : update (update hold t m) t (some .reader) = hold := by rw [update_idem, ← h, update_eq_self]
  have hne : update hold t m t ≠ some .reader := by rwa [update_self]
  have hadd := readersCount_add hne
  rw [hback] at hadd
  exact hadd.symm

theorem readersCount_grant {hold : T → Option Krw} {l : List T} (hl : l.Nodup)
    (h : ∀ t ∈ l, hold t = none) :
    readersCount (Sys.grant hold l .reader) = readersCount hold + l.length := by
  have hset : (Finset.univ.filter fun t => Sys.grant hold l .reader t = some .reader) =
      (Finset.univ.filter fun t => hold t = some .reader) ∪ l.toFinset := by
    ext t
    by_cases ht : t ∈ l <;> simp [Sys.grant, ht]
  have hdisj : Disjoint (Finset.univ.filter fun t => hold t = some .reader) l.toFinset := by
    rw [disjoint_left]
    intro t ht hl'
    rw [mem_filter, h t (List.mem_toFinset.1 hl')] at ht
    cases ht.2
  unfold readersCount
  rw [hset, card_union_of_disjoint hdisj, List.toFinset_card_of_nodup hl]

namespace Shape

variable {th : Threads T} {hold : T → Option Krw} {f : Fields} {t : T}

theorem addReader (h : Shape th hold f) (ht : hold t = none) (hf : f.wrlock = false) :
    Shape th (update hold t (some .reader)) { f with count := f.count + 1 } := by
  cases h with
  | write o ww hw ho hother => exact absurd hf (by simp [Fields.owned])
  | read ww hw hno =>
    rw [← readersCount_add (by rw [ht]; simp)]
    refine .read ww hw fun u => ?_
    by_cases hu : u = t
    · subst hu
      simp
    · rw [update_of_ne hu]
      exact hno u

variable {ww hw : Bool}

theorem addWriter (hnone : ∀ u, hold u = none) :
    Shape th (update hold t (some .writer)) (Fields.owned (th.addr t) ww hw) := by
  refine .write t ww hw (by simp) fun u hu => ?_
  rw [update_of_ne hu, hnone u]

theorem removeReader (h : Shape th hold f) (ht : hold t = some .reader) :
    Shape th (update hold t none) { f with count := f.count - 1 } := by
  obtain ⟨⟨ww, hw, rfl⟩, hno⟩ := h.of_reader ht
  have hcount := readersCount_remove (m := none) ht (by simp)
  rw [← hcount, Nat.add_sub_cancel]
  refine .read ww hw fun u => ?_
  by_cases hu : u = t
  · subst hu
    simp
  · rw [update_of_ne hu]
    exact hno u

section

variable (hother : ∀ u, u ≠ t → hold u = none)
include hother

theorem removeLast : Shape th (update hold t none) ⟨0, false, ww, hw⟩ := by
  have hnone : ∀ u, update hold t none u = none := fun u => by
    by_cases hu : u = t
    · subst hu
      simp
    · rw [update_of_ne hu, hother u hu]
  have hcount : readersCount (update hold t none) = 0 := readersCount_eq_zero.2 fun u => by
    rw [hnone u]; simp
  rw [← hcount]
  exact .read ww hw fun u => by rw [hnone u]; simp

theorem toReader : Shape th (update hold t (some .reader)) ⟨1, false, ww, hw⟩ := by
  have hlast : Shape th (update hold t none) ⟨0, false, ww, hw⟩ := removeLast hother
  have h := hlast.addReader (t := t) (by simp) rfl
  rwa [update_idem] at h

theorem toWriter : Shape th (update hold t (some .writer)) (Fields.owned (th.addr t) ww hw) :=
  .write t ww hw (by simp) fun u hu => by rw [update_of_ne hu, hother u hu]

end

theorem grantReaders (h : Shape th hold f) (hf : f.wrlock = false) {l : List T} (hl : l.Nodup)
    (hnone : ∀ u ∈ l, hold u = none) :
    Shape th (Sys.grant hold l .reader) { f with count := f.count + l.length } := by
  cases h with
  | write o ww hw ho hother => exact absurd hf (by simp [Fields.owned])
  | read ww hw hno =>
    rw [← readersCount_grant hl hnone]
    refine .read ww hw fun u => ?_
    unfold Sys.grant
    split
    · simp
    · exact hno u

theorem grantWriter (hnone : ∀ u, hold u = none) :
    Shape th (Sys.grant hold [t] .writer) (Fields.owned (th.addr t) ww hw) := by
  refine .write t ww hw (by simp [Sys.grant]) fun u hu => ?_
  simp [Sys.grant, hu, hnone u]

end Shape

/-! ## The queues -/

namespace Sys

variable (s : Sys T)

/-- How many threads of a queue are being woken. They hold the lock already. -/
def waking (q : Krw) : ℕ :=
  match s.chain with
  | none => 0
  | some c =>
    match s.pc c with
    | .wakeup q' n _ => if q' = q then n else 0
    | _ => 0

/-- The thread that is about to join a queue. -/
def blocking : Option Krw :=
  match s.chain with
  | none => none
  | some c =>
    match s.pc c with
    | .enterBlock rw => some rw
    | _ => none

def granted (t : T) : Prop := ∃ q, t ∈ (s.queue q).take (s.waking q)

def remaining (q : Krw) : List T := (s.queue q).drop (s.waking q)

/-- Some thread will have to be woken. -/
def Waiters : Prop := s.remaining .writer ≠ [] ∨ s.remaining .reader ≠ [] ∨ s.blocking ≠ none

def Wanted : Prop := s.remaining .writer ≠ [] ∨ s.blocking = some .writer

end Sys

/-! ## The invariant -/

/-- The writer that has downgraded and not yet woken the readers. -/
def Pc.downgrading : Pc → Bool
  | .downgradeLookup | .downgradeHandoff => true
  | _ => false

/-- The last holder of a lock with waiters, on its way to hand the lock over. -/
def Pc.exiting : Pc → Bool
  | .exitLookup _ | .exitHandoff _ => true
  | _ => false

/-- What a thread that holds the lock in this way knows at an access. `granted` is for a thread that
sleeps. -/
def PcOk (addr : Word) (f : Fields) (granted : Prop) (hold : Option Krw) : Pc → Prop
  | .idle own => hold = own
  | .enter _ | .enterLookup _ | .enterTest _ | .enterAgain _ | .enterBlock _ | .tryenter _ => hold = none
  | .enterCas rw old => hold = none ∧ old &&& lockBusy rw = 0
  | .enterWait rw old => hold = none ∧ old &&& lockBusy rw ≠ 0
  | .asleep rw => (granted → hold = some rw) ∧ (¬ granted → hold = none)
  | .exit => hold ≠ none
  | .exitLoop lv => ∃ m, hold = some m ∧ lv = lockValue addr m
  | .exitCas lv old new => (∃ m, hold = some m ∧ lv = lockValue addr m) ∧ new = old - lv ∧
      new &&& (rwLocked ||| rwHasWaiters) ≠ rwHasWaiters
  | .exitLookup old | .exitHandoff old => (∃ m, hold = some m ∧ (old &&& rwWriteLocked ≠ 0 ↔ m = .writer)) ∧
      f.waiters = true ∧ (hold = some .reader → f.count = 1 ∧ f.wanted = true)
  | .tryenterCas old => hold = none ∧ old &&& rwWriteClaimed = 0
  | .downgrade | .downgradeAdd => hold = some .writer
  | .downgradeLookup | .downgradeHandoff => hold = some .reader ∧ f.waiters = true
  | .tryupgrade => hold = some .reader
  | .tryupgradeCas old new => hold = some .reader ∧ old &&& ~~~rwHasWaiters = rwReadLock ∧
      new = old + rwWriteLock addr - rwReadLock
  | .wakeup _ _ own => hold = own
  | .panic => False

/-- The state of the lock when its word has these fields. -/
structure Inv (th : Threads T) (s : Sys T) (f : Fields) : Prop where
  word : s.word = f.word
  shape : Shape th s.hold f
  mem : ∀ t rw, t ∈ s.queue rw ↔ s.pc t = .asleep rw
  nodup : ∀ rw, (s.queue rw).Nodup
  chain : ∀ t, s.chain = some t ↔ (s.pc t).critical = true
  waking_le : ∀ q, s.waking q ≤ (s.queue q).length
  waiters : f.waiters = true ↔ s.Waiters
  wanted : f.wanted = true ↔ s.Wanted
  held : f.waiters = true → 0 < f.count
  pend : f.waiters = true → f.wrlock = false → f.wanted = false → ∃ d, (s.pc d).downgrading = true
  one : ∀ d d', (s.pc d).downgrading = true → (s.pc d').downgrading = true → d = d'
  ok : ∀ t, PcOk (th.addr t) f (s.granted t) (s.hold t) (s.pc t)

theorem Inv.okAt {T : Type} [Fintype T] {th : Threads T} {s : Sys T} {f : Fields} {t : T} {p : Pc}
    (hi : Inv th s f) (hpc : s.pc t = p) : PcOk (th.addr t) f (s.granted t) (s.hold t) p := hpc ▸ hi.ok t

theorem PcOk.congr {addr : Word} {f f' : Fields} {g g' : Prop} {hold : Option Krw} {p : Pc}
    (h : PcOk addr f g hold p) (hg : ∀ rw, p = .asleep rw → (g ↔ g'))
    (hw : p.exiting = true ∨ p.downgrading = true → f.waiters = true → f'.waiters = true)
    (hx : p.exiting = true → hold = some .reader → f.count = 1 → f.wanted = true → f'.count = 1 ∧
      f'.wanted = true) :
    PcOk addr f' g' hold p := by
  cases p with
  | asleep rw =>
    have := hg rw rfl
    exact ⟨fun h' => h.1 (this.2 h'), fun h' => h.2 (mt this.1 h')⟩
  | exitLookup old => exact ⟨h.1, hw (.inl rfl) h.2.1, fun hr => hx rfl hr (h.2.2 hr).1 (h.2.2 hr).2⟩
  | exitHandoff old => exact ⟨h.1, hw (.inl rfl) h.2.1, fun hr => hx rfl hr (h.2.2 hr).1 (h.2.2 hr).2⟩
  | downgradeLookup => exact ⟨h.1, hw (.inr rfl) h.2⟩
  | downgradeHandoff => exact ⟨h.1, hw (.inr rfl) h.2⟩
  | _ => exact h

end Osol.Rwlock
