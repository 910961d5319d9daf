import Osol.Rwlock.Inv

/-!
# The accesses keep the invariant

First the accesses of a thread that does not hold the lock of the chain, then those of the one that
does.
-/

namespace Osol.Rwlock

open Function

variable {T : Type} {s s' : Sys T} {f f' : Fields} {t : T} {p : Pc}

/-! ## Frames -/

namespace Sys

section

variable (hchain : s'.chain = s.chain) (hpc : ∀ c, s.chain = some c → s'.pc c = s.pc c)
include hchain hpc

theorem waking_congr (q : Krw) : s'.waking q = s.waking q := by
  unfold waking
  rw [hchain]
  cases hc : s.chain with
  | none => rfl
  | some c => simp only [hpc c hc]

theorem blocking_congr : s'.blocking = s.blocking := by
  unfold blocking
  rw [hchain]
  cases hc : s.chain with
  | none => rfl
  | some c => simp only [hpc c hc]

end

theorem waking_none (hchain : s.chain = none) (q : Krw) : s.waking q = 0 := by
  unfold waking
  rw [hchain]

theorem blocking_none (hchain : s.chain = none) : s.blocking = none := by
  unfold blocking
  rw [hchain]

variable [DecidableEq T]

theorem move_self (s : Sys T) (t : T) (p : Pc) : s.move t s.word (s.hold t) p = s.go t p := by
  unfold move
  rw [update_eq_self]
  rfl

@[simp] theorem queue_move (s : Sys T) (t : T) (w : Word) (m : Option Krw) (p : Pc) (q : Krw) :
    (s.move t w m p).queue q = s.queue q := by
  cases q <;> rfl

end Sys

variable [Fintype T] {th : Threads T}

/-! ## What the word says -/

section Word

variable (hi : Inv th s f)

include hi

theorem Inv.fits : f.Fits := hi.shape.fits

theorem Inv.and_owner (ht : s.hold t = some .writer) : s.word &&& rwOwner = th.addr t := by
  have ha := th.aligned t
  obtain ⟨⟨ww, hw, rfl⟩, -⟩ := hi.shape.of_writer ht
  rw [hi.word, Fields.and_owner hi.fits, Fields.owned]
  dsimp only
  omega

theorem Inv.not_owner (ht : s.hold t = none) : ¬ s.word &&& rwOwner = th.addr t := by
  intro hown
  rw [hi.word, Fields.and_owner hi.fits] at hown
  have habove := th.above t
  cases hi.shape with
  | write o ww hw ho _ =>
    have ha := th.aligned o
    have heq : o = t := th.injective
      (BitVec.eq_of_toNat_eq (by rw [← hown, Fields.owned]; dsimp only; omega))
    rw [heq, ht] at ho
    simp at ho
  | read ww hw hno =>
    have hle := readersCount_le s.hold
    dsimp only at hown
    omega

theorem Inv.not_double : ¬ s.word &&& rwDoubleLock = rwDoubleLock := by
  rw [hi.word, Fields.and_doubleLock hi.fits]
  rintro ⟨hodd, hwr⟩
  cases hi.shape with
  | write o ww hw ho _ =>
    have ha := th.aligned o
    rw [Fields.owned] at hodd
    dsimp only at hodd
    omega
  | read ww hw hno => simp at hwr

theorem Inv.writeLocked_iff (ht : s.hold t ≠ none) :
    s.word &&& rwWriteLocked ≠ 0 ↔ s.hold t = some .writer := by
  rw [hi.word, Ne, Fields.and_writeLocked hi.fits]
  obtain ⟨m, hm⟩ := Option.ne_none_iff_exists'.1 ht
  cases m with
  | writer =>
    obtain ⟨⟨ww, hw, rfl⟩, -⟩ := hi.shape.of_writer hm
    simp [hm, Fields.owned]
  | reader =>
    obtain ⟨⟨ww, hw, rfl⟩, -⟩ := hi.shape.of_reader hm
    simp [hm]

end Word

/-! ## Outside of the chain -/

variable [DecidableEq T]

section

variable (hi : Inv th s f) (hcrit : (s.pc t).critical = false) (hcrit' : p.critical = false)
  (hsleep : ∀ rw, s.pc t ≠ .asleep rw) (hsleep' : ∀ rw, p ≠ .asleep rw)
  (hdown : (s.pc t).downgrading = false)
include hi hcrit hcrit' hsleep hsleep' hdown

theorem Inv.move {mode : Option Krw} (hshape : Shape th (update s.hold t mode) f')
    (hwaiters : f'.waiters = f.waiters) (hwanted : f'.wanted = f.wanted) (hheld : f.waiters = true →
      0 < f'.count)
    (hpend : f.waiters = true → f'.wrlock = false → f.wanted = false → p.downgrading = true ∨
      f.wrlock = false)
    (hone : p.downgrading = true → ∀ u, u ≠ t → s.hold u = none)
    (hexit : ∀ u, u ≠ t → s.hold u = some .reader → f.count = 1 → f.wanted = true → f'.count = 1)
    (hok : PcOk (th.addr t) f' False mode p) : Inv th (s.move t f'.word mode p) f' := by
  have hnc : s.chain ≠ some t := fun hc => by
    rw [hi.chain, hcrit] at hc
    simp at hc
  have hpc : ∀ u, u ≠ t → (s.move t f'.word mode p).pc u = s.pc u := fun u hu => update_of_ne hu _ _
  have hself : (s.move t f'.word mode p).pc t = p := update_self ..
  have hholder : ∀ c, s.chain = some c → (s.move t f'.word mode p).pc c = s.pc c :=
    fun c hc => hpc c fun h => hnc (h ▸ hc)
  have hwaking : ∀ q, (s.move t f'.word mode p).waking q = s.waking q := Sys.waking_congr rfl hholder
  have hblocking : (s.move t f'.word mode p).blocking = s.blocking := Sys.blocking_congr rfl hholder
  have hgranted : ∀ u, (s.move t f'.word mode p).granted u ↔ s.granted u := fun u => by
    unfold Sys.granted
    simp only [Sys.queue_move, hwaking]
  have hremaining : ∀ q, (s.move t f'.word mode p).remaining q = s.remaining q := fun q => by
    unfold Sys.remaining
    rw [Sys.queue_move, hwaking]
  -- the thread's own part of a clause over all threads, and the others'
  have hdg : ∀ d, d ≠ t → ((s.move t f'.word mode p).pc d).downgrading = (s.pc d).downgrading :=
    fun d hd => by rw [hpc d hd]
  refine ⟨rfl, hshape, ?_, ?_, ?_, ?_, ?_, ?_, ?_, ?_, ?_, ?_⟩
  · intro u rw
    rw [Sys.queue_move, hi.mem]
    by_cases hu : u = t
    · subst hu
      rw [hself]
      exact iff_of_false (hsleep rw) (hsleep' rw)
    · rw [hpc u hu]
  · intro rw
    exact hi.nodup rw
  · intro u
    by_cases hu : u = t
    · subst hu
      rw [hself, hcrit']
      exact iff_of_false hnc (by simp)
    · rw [hpc u hu]
      exact hi.chain u
  · intro q
    rw [hwaking, Sys.queue_move]
    exact hi.waking_le q
  · rw [hwaiters, hi.waiters, Sys.Waiters, Sys.Waiters, hremaining, hremaining, hblocking]
  · rw [hwanted, hi.wanted, Sys.Wanted, Sys.Wanted, hremaining, hblocking]
  · rwa [hwaiters]
  · rw [hwaiters, hwanted]
    intro h1 h2 h3
    rcases hpend h1 h2 h3 with hp | hwr
    · exact ⟨t, by rw [hself, hp]⟩
    · obtain ⟨d, hd⟩ := hi.pend h1 hwr h3
      have hdt : d ≠ t := fun h => by
        rw [h, hdown] at hd
        simp at hd
      exact ⟨d, by rw [hdg d hdt, hd]⟩
  · -- another thread that is downgrading holds the lock
    have hother : p.downgrading = true → ∀ d, d ≠ t → (s.pc d).downgrading = false := fun hp d hd => by
      have hok := hi.ok d
      rw [hone hp d hd] at hok
      cases hpd : s.pc d with
      | downgradeLookup =>
        rw [hpd] at hok
        cases hok.1
      | downgradeHandoff =>
        rw [hpd] at hok
        cases hok.1
      | _ => rfl
    intro d d' hd hd'
    by_cases h1 : d = t <;> by_cases h2 : d' = t
    · rw [h1, h2]
    · rw [h1, hself] at hd
      rw [hdg d' h2, hother hd d' h2] at hd'
      simp at hd'
    · rw [h2, hself] at hd'
      rw [hdg d h1, hother hd' d h1] at hd
      simp at hd
    · rw [hdg d h1] at hd
      rw [hdg d' h2] at hd'
      exact hi.one d d' hd hd'
  · intro u
    by_cases hu : u = t
    · subst hu
      rw [hself, show (s.move u f'.word mode p).hold u = mode from update_self ..]
      exact hok.congr (fun rw h => absurd h (hsleep' rw)) (fun _ h => h) (fun _ _ h1 h2 => ⟨h1, h2⟩)
    · rw [hpc u hu, show (s.move t f'.word mode p).hold u = s.hold u from update_of_ne hu _ _]
      exact (hi.ok u).congr (fun rw _ => (hgranted u).symm) (fun _ h => hwaiters ▸ h)
        (fun _ hr h1 h2 => ⟨hexit u hu hr h1 h2, hwanted ▸ h2⟩)

theorem Inv.go
    (hdown' : p.downgrading = false) (hok : PcOk (th.addr t) f False (s.hold t) p) :
    Inv th (s.go t p) f := by
  rw [← Sys.move_self, hi.word]
  refine hi.move hcrit hcrit' hsleep hsleep' hdown ?_ rfl rfl hi.held (fun _ h _ => .inr h) ?_
    (fun _ _ _ h _ => h) hok
  · rw [update_eq_self]
    exact hi.shape
  · rw [hdown']
    exact fun h => absurd h (by simp)

end

/-! ## Entries -/

/-- Where an access outside of the chain leads. -/
structure Plain (p : Pc) : Prop where
  critical : p.critical = false
  awake : ∀ rw, p ≠ .asleep rw
  downgrading : p.downgrading = false

def Pc.plain : Pc → Bool
  | .asleep _ => false
  | p => !p.critical && !p.downgrading

theorem Plain.of_eq {q : Pc} (h : p = q) (hq : q.plain = true) : Plain p := by
  subst h
  cases p <;> first | (cases hq; done) | exact ⟨rfl, by simp, rfl⟩

theorem Inv.goPlain {q : Pc} (hi : Inv th s f) (hpc : s.pc t = q) (hq : q.plain = true)
    (hp : p.plain = true) (hok : PcOk (th.addr t) f False (s.hold t) p) : ∃ f', Inv th (s.go t p) f' := by
  have hfrom := Plain.of_eq hpc hq
  have hto := Plain.of_eq rfl hp
  exact ⟨f, hi.go hfrom.critical hto.critical hfrom.awake hto.awake hfrom.downgrading hto.downgrading hok⟩

variable {rw : Krw}

theorem Inv.enter (hi : Inv th s f) (hpc : s.pc t = .enter rw) : ∃ f', Inv th (s.go t (
      if s.word &&& lockBusy rw = 0 then .enterCas rw s.word
      else if s.word &&& rwDoubleLock = rwDoubleLock then .panic
      else if s.word &&& rwOwner = th.addr t then .panic
      else .enterLookup rw)) f' := by
  have hok := hi.okAt hpc
  rw [if_neg hi.not_double, if_neg (hi.not_owner hok)]
  split_ifs with hbusy
  · exact hi.goPlain hpc rfl rfl ⟨hok, hbusy⟩
  · exact hi.goPlain hpc rfl rfl hok

theorem Inv.gainReader (hi : Inv th s f) (hplain : Plain (s.pc t)) (hnone : s.hold t = none)
    (hfree : s.word &&& rwWriteClaimed = 0) :
    ∃ f', Inv th (s.move t (s.word + rwReadLock) (some .reader) (.idle (some .reader))) f' := by
  rw [hi.word, Fields.and_writeClaimed hi.fits] at hfree
  rw [hi.word, Fields.word_add_read]
  refine ⟨{ f with count := f.count + 1 },
    hi.move hplain.critical rfl hplain.awake (by simp) hplain.downgrading
    (hi.shape.addReader hnone hfree.1) rfl rfl (fun _ => Nat.succ_pos _) (fun _ h _ => .inr h)
    (fun h => absurd h (by simp [Pc.downgrading])) (fun _ _ _ _ h => ?_) rfl⟩
  rw [hfree.2] at h
  simp at h

theorem Inv.gainWriter (hi : Inv th s f) (hplain : Plain (s.pc t)) (hfree : s.word &&& rwLocked = 0) :
    ∃ f', Inv th (s.move t (s.word + rwWriteLock (th.addr t)) (some .writer) (.idle (some .writer)))
    f' := by
  rw [hi.word, Fields.and_locked hi.fits] at hfree
  obtain ⟨⟨ww, hw, rfl⟩, hnone⟩ := hi.shape.of_count_eq_zero hfree
  rw [hi.word, Fields.word_add_write (th.aligned t)]
  refine ⟨_, hi.move hplain.critical rfl hplain.awake (by simp) hplain.downgrading
    (Shape.addWriter hnone) rfl rfl
    (fun _ => (Nat.zero_le _).trans_lt (Shape.owner_pos th t))
      (fun _ h _ => absurd h (by simp [Fields.owned]))
    (fun h => absurd h (by simp [Pc.downgrading])) (fun u _ h _ _ => ?_) rfl⟩
  rw [hnone u] at h
  simp at h

variable {old : Word}

section

variable (hi : Inv th s f)
include hi

theorem Inv.enterCas (hpc : s.pc t = .enterCas rw old) :
    ∃ f', Inv th (if s.word = old then s.move t (old + lockValue (th.addr t) rw) (some rw) (.idle (some rw))
      else s.go t (.enter rw)) f' := by
  have hok := hi.okAt hpc
  have hplain : Plain (s.pc t) := .of_eq hpc rfl
  split_ifs with heq
  · subst heq
    cases rw with
    | reader => exact hi.gainReader hplain hok.1 hok.2
    | writer => exact hi.gainWriter hplain hok.2
  · exact hi.goPlain hpc rfl rfl hok.1

theorem Inv.tryenter {call : Call} (hpc : s.pc t = .tryenter rw)
    (hstep : s.step th t call = some s') : ∃ f', Inv th s' f' := by
  have hok := hi.okAt hpc
  have hplain : Plain (s.pc t) := .of_eq hpc rfl
  rw [Sys.step, hpc] at hstep
  cases rw with
  | reader =>
    cases hstep
    split_ifs with hfree
    · exact hi.goPlain hpc rfl rfl hok
    · exact hi.goPlain hpc rfl rfl ⟨hok, not_not.1 hfree⟩
  | writer =>
    cases hstep
    split_ifs with h0
    · have hgain := hi.gainWriter hplain (by rw [h0]; decide)
      rwa [h0, zero_add] at hgain
    · exact hi.goPlain hpc rfl rfl hok

theorem Inv.tryenterCas (hpc : s.pc t = .tryenterCas old) :
    ∃ f', Inv th (if s.word = old then s.move t (old + rwReadLock) (some .reader) (.idle (some .reader))
      else s.go t (.tryenter .reader)) f' := by
  have hok := hi.okAt hpc
  have hplain : Plain (s.pc t) := .of_eq hpc rfl
  split_ifs with heq
  · subst heq
    exact hi.gainReader hplain hok.1 hok.2
  · exact hi.goPlain hpc rfl rfl hok.1

/-! ## Exits -/

theorem Inv.exit (hpc : s.pc t = .exit) : ∃ f', Inv th (s.go t (
      if s.word &&& rwWriteLocked ≠ 0 then
        if s.word &&& rwOwner ≠ th.addr t then .panic else .exitLoop (lockValue (th.addr t) .writer)
      else if s.word &&& rwLocked = 0 then .panic
      else .exitLoop (lockValue (th.addr t) .reader))) f' := by
  have hok := hi.okAt hpc
  have hiff := hi.writeLocked_iff hok
  split
  · rename_i hwr
    have hw := hiff.1 hwr
    rw [if_neg (not_not.2 (hi.and_owner hw))]
    exact hi.goPlain hpc rfl rfl ⟨_, hw, rfl⟩
  rename_i hrd
  have hpos := hi.shape.count_pos hok
  rw [if_neg (by rw [hi.word, Fields.and_locked hi.fits]; omega)]
  obtain ⟨m, hm⟩ := Option.ne_none_iff_exists'.1 hok
  cases m with
  | reader => exact hi.goPlain hpc rfl rfl ⟨_, hm, rfl⟩
  | writer => exact absurd (hiff.2 hm) hrd

theorem Inv.word_sub {m : Krw} (hm : s.hold t = some m) :
    ∃ f' : Fields, s.word - lockValue (th.addr t) m = f'.word ∧ Shape th (update s.hold t none) f' ∧
      f'.waiters = f.waiters ∧ f'.wanted = f.wanted ∧ f'.wrlock = false ∧ f'.Fits ∧
      (m = .reader → f.wrlock = false ∧ f.count = f'.count + 1) ∧ (m = .writer → f'.count = 0) := by
  cases m with
  | reader =>
    have hpos := hi.shape.count_pos (by rw [hm]; simp)
    have hsh := hi.shape.removeReader hm
    obtain ⟨⟨ww, hw, rfl⟩, -⟩ := hi.shape.of_reader hm
    refine ⟨_, ?_, hsh, rfl, rfl, rfl, hsh.fits, fun _ => ⟨rfl, ?_⟩, by simp⟩
    · rw [hi.word, lockValue, Fields.word_sub_read hpos]
    · dsimp only at hpos ⊢
      omega
  | writer =>
    obtain ⟨⟨ww, hw, rfl⟩, hother⟩ := hi.shape.of_writer hm
    have hsh : Shape th (update s.hold t none) ⟨0, false, ww, hw⟩ := Shape.removeLast hother
    refine ⟨_, ?_, hsh, rfl, rfl, rfl, hsh.fits, by simp, fun _ => rfl⟩
    rw [hi.word, lockValue, Fields.word_sub_write (th.aligned t)]

theorem Inv.exitLoop {lv : Word} (hpc : s.pc t = .exitLoop lv) : ∃ f', Inv th (s.go t (
      if (s.word - lv) &&& (rwLocked ||| rwHasWaiters) ≠ rwHasWaiters then .exitCas lv s.word (s.word - lv)
      else .exitLookup s.word)) f' := by
  have hok := hi.okAt hpc
  obtain ⟨m, hm, rfl⟩ := hok
  split
  · rename_i hguard
    exact hi.goPlain hpc rfl rfl ⟨⟨m, hm, rfl⟩, rfl, hguard⟩
  rename_i hguard
  obtain ⟨f', hw', -, hwait, -, -, hfits, hrd, -⟩ := hi.word_sub hm
  rw [not_not, hw', Fields.and_locked_waiters hfits] at hguard
  have hwaiters : f.waiters = true := hwait ▸ hguard.2
  refine hi.goPlain hpc rfl rfl ⟨⟨m, hm, ?_⟩, hwaiters, fun hr => ?_⟩
  · rw [hi.writeLocked_iff (by rw [hm]; simp), hm]
    simp
  rw [hm] at hr
  cases hr
  obtain ⟨hwr, hcount⟩ := hrd rfl
  have h1 : f.count = 1 := by omega
  refine ⟨h1, ?_⟩
  -- otherwise a thread that downgrades holds the lock, too
  by_contra hnw
  obtain ⟨d, hd⟩ := hi.pend hwaiters hwr (by simpa using hnw)
  have hdt : d ≠ t := by
    rintro rfl
    rw [hpc] at hd
    exact absurd hd (by simp [Pc.downgrading])
  have hokd := hi.ok d
  rw [hi.shape.alone hm h1 d hdt] at hokd
  cases hpd : s.pc d with
  | downgradeLookup =>
    rw [hpd] at hokd
    cases hokd.1
  | downgradeHandoff =>
    rw [hpd] at hokd
    cases hokd.1
  | _ => simp [hpd, Pc.downgrading] at hd

theorem Inv.exitCas {lv new : Word} (hpc : s.pc t = .exitCas lv old new) :
    ∃ f', Inv th (if s.word = old then s.move t new none (.idle none) else s.go t (.exitLoop lv)) f' := by
  have hok := hi.okAt hpc
  have hplain : Plain (s.pc t) := .of_eq hpc rfl
  obtain ⟨⟨m, hm, rfl⟩, rfl, hguard⟩ := hok
  split_ifs with heq
  · subst heq
    obtain ⟨f', hw', hsh, hwait, hwant, hwr, hfits, hrd, hwd⟩ := hi.word_sub hm
    rw [hw'] at hguard ⊢
    rw [Ne, Fields.and_locked_waiters hfits, hwait] at hguard
    have hpos : f.waiters = true → 0 < f'.count := fun h => Nat.pos_of_ne_zero fun h0 => hguard ⟨h0, h⟩
    refine ⟨f', hi.move hplain.critical rfl hplain.awake (by simp) hplain.downgrading hsh hwait
      hwant hpos ?_ (fun h => absurd h (by simp [Pc.downgrading])) ?_ rfl⟩
    · intro h _ _
      cases m with
      | reader => exact .inr (hrd rfl).1
      | writer => exact absurd (hpos h) (by rw [hwd rfl]; simp)
    intro u hu hr h1 _
    cases m with
    | reader =>
      rw [hi.shape.alone hr h1 t hu.symm] at hm
      simp at hm
    | writer =>
      rw [(hi.shape.of_writer hm).2 u hu] at hr
      simp at hr
  · exact hi.goPlain hpc rfl rfl ⟨m, hm, rfl⟩

/-! ## Changes of mode -/

theorem Inv.downgrade (hpc : s.pc t = .downgrade) :
    ∃ f', Inv th (s.go t (if s.word &&& rwOwner ≠ th.addr t then .panic else .downgradeAdd)) f' := by
  have hok := hi.okAt hpc
  rw [if_neg (not_not.2 (hi.and_owner hok))]
  exact hi.goPlain hpc rfl rfl hok

theorem Inv.downgradeAdd (hpc : s.pc t = .downgradeAdd) :
    ∃ f', Inv th (s.move t (s.word + (rwReadLock - rwWriteLock (th.addr t))) (some .reader)
      (if (s.word + (rwReadLock - rwWriteLock (th.addr t))) &&& rwHasWaiters ≠ 0 then .downgradeLookup
        else .idle (some .reader))) f' := by
  have hok := hi.okAt hpc
  have hplain : Plain (s.pc t) := .of_eq hpc rfl
  obtain ⟨⟨ww, hw, rfl⟩, hother⟩ := hi.shape.of_writer hok
  have hsh : Shape th (update s.hold t (some .reader)) ⟨1, false, ww, hw⟩ := Shape.toReader hother
  have hexit : ∀ u, u ≠ t → s.hold u = some .reader → False := fun u hu hr => by
    rw [hother u hu] at hr
    simp at hr
  rw [hi.word, Fields.word_downgrade (th.aligned t)]
  simp only [ne_eq, Fields.and_waiters hsh.fits]
  refine ⟨_, hi.move hplain.critical ?_ hplain.awake ?_ hplain.downgrading hsh rfl rfl
    (fun _ => one_pos) ?_ (fun _ => hother) (fun u hu hr _ _ => (hexit u hu hr).elim) ?_⟩
  · split <;> rfl
  · split <;> simp
  · intro h _ _
    rw [if_pos (by simpa [Fields.owned] using h)]
    exact .inl rfl
  · cases hw with
    | true => exact ⟨rfl, rfl⟩
    | false => exact rfl

theorem Inv.tryupgrade (hpc : s.pc t = .tryupgrade) : ∃ f', Inv th (s.go t (
      if s.word &&& ~~~rwHasWaiters ≠ rwReadLock then .idle (some .reader)
      else .tryupgradeCas s.word (s.word + rwWriteLock (th.addr t) - rwReadLock))) f' := by
  have hok := hi.okAt hpc
  split_ifs with hone
  · exact hi.goPlain hpc rfl rfl hok
  · exact hi.goPlain hpc rfl rfl ⟨hok, not_not.1 hone, rfl⟩

theorem Inv.tryupgradeCas {new : Word} (hpc : s.pc t = .tryupgradeCas old new) :
    ∃ f', Inv th (if s.word = old then s.move t new (some .writer) (.idle (some .writer))
      else s.go t .tryupgrade) f' := by
  have hok := hi.okAt hpc
  have hplain : Plain (s.pc t) := .of_eq hpc rfl
  obtain ⟨hold, hone, rfl⟩ := hok
  split_ifs with heq
  · subst heq
    rw [hi.word, Fields.and_not_waiters hi.fits] at hone
    have hother := hi.shape.alone hold hone.1
    obtain ⟨c, wl, ww, hw⟩ := f
    obtain ⟨rfl, rfl, rfl⟩ := hone
    rw [hi.word, Fields.word_upgrade (th.aligned t)]
    refine ⟨_, hi.move hplain.critical rfl hplain.awake (by simp) hplain.downgrading
      (Shape.toWriter hother) rfl rfl
      (fun _ => (Nat.zero_le _).trans_lt (Shape.owner_pos th t))
        (fun _ h _ => absurd h (by simp [Fields.owned]))
      (fun h => absurd h (by simp [Pc.downgrading])) (fun u hu hr _ _ => ?_) rfl⟩
    rw [hother u hu] at hr
    simp at hr
  · exact hi.goPlain hpc rfl rfl hold

end

end Osol.Rwlock
