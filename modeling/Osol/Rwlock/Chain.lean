import Osol.Rwlock.Steps

/-!
# Accesses under the lock of the chain

A thread that is about to sleep sets the waiting bits, and a thread that hands the lock over computes
them from the queues. Between the hand-off and `turnstile_wakeup` the threads that are being woken
are on a queue and hold the lock.
-/

namespace Osol.Rwlock

open Turnstile Function List Fields

variable {T : Type} {s s' : Sys T} {f f' : Fields} {t : T} {p : Pc}

/-! ## Frames -/

/-- A thread that wakes nobody and does not join a queue. -/
structure Quiet (p : Pc) : Prop where
  wakeup : ∀ q n own, p ≠ .wakeup q n own
  block : ∀ rw, p ≠ .enterBlock rw

variable {rw : Krw}

namespace Sys

variable {c : T}

section

variable (hchain : s.chain = some c)
include hchain

theorem waking_quiet (hp : ∀ q n own, s.pc c ≠ .wakeup q n own) (q : Krw) : s.waking q = 0 := by
  unfold waking
  rw [hchain]
  cases hpc : s.pc c with
  | wakeup q' n own => exact absurd hpc (hp q' n own)
  | _ => simp only [hpc]

theorem blocking_quiet (hp : ∀ rw, s.pc c ≠ .enterBlock rw) : s.blocking = none := by
  unfold blocking
  rw [hchain]
  cases hpc : s.pc c with
  | enterBlock rw => exact absurd hpc (hp rw)
  | _ => simp only [hpc]

theorem waking_wakeup {q : Krw} {n : ℕ} {own : Option Krw}
    (hpc : s.pc c = .wakeup q n own) (q' : Krw) : s.waking q' = if q = q' then n else 0 := by
  unfold waking
  rw [hchain]
  simp only [hpc]

theorem blocking_block (hpc : s.pc c = .enterBlock rw) : s.blocking = some rw := by
  unfold blocking
  rw [hchain]
  simp only [hpc]

end

theorem not_granted_of_waking (h : ∀ q, s.waking q = 0) (t : T) : ¬ s.granted t := by
  rintro ⟨q, hq⟩
  rw [h q, take_zero] at hq
  simp at hq

theorem remaining_of_waking (h : ∀ q, s.waking q = 0) (q : Krw) : s.remaining q = s.queue q := by
  rw [remaining, h q, drop_zero]

theorem quiet (hq : Quiet (s.pc t)) (hc : s.chain = none ∨ s.chain = some t) :
    (∀ q, s.waking q = 0) ∧ s.blocking = none := by
  rcases hc with hc | hc
  · exact ⟨waking_none hc, blocking_none hc⟩
  · exact ⟨waking_quiet hc hq.wakeup, blocking_quiet hc hq.block⟩

variable [DecidableEq T]

theorem go_chain (hc : s.chain = some t) (hp : p.critical = true) :
    { s.go t p with chain := if p.critical then some t else none } = s.go t p := by
  rw [if_pos hp, ← hc]
  rfl

theorem queue_block (s : Sys T) (t : T) (rw q : Krw) :
    (s.block t rw).queue q = if q = rw then sleepqInsert s.pri t (s.queue q) else s.queue q := by
  cases rw <;> cases q <;> rfl

theorem pc_block (s : Sys T) (t : T) (rw : Krw) :
    (s.block t rw).pc = update s.pc t (.asleep rw) ∧ (s.block t rw).chain = none ∧
      (s.block t rw).hold = s.hold ∧ (s.block t rw).word = s.word := by
  cases rw <;> exact ⟨rfl, rfl, rfl, rfl⟩

theorem queue_wake (s : Sys T) (t : T) (q : Krw) (n : ℕ) (own : Option Krw) (r : Krw) :
    (s.wake t q n own).queue r = if q = r then (s.queue r).drop n else s.queue r := by
  cases q <;> cases r <;> rfl

theorem pc_wake (s : Sys T) (t : T) (q : Krw) (n : ℕ) (own : Option Krw) : (s.wake t q n own).pc =
        update (fun u => if u ∈ (s.queue q).take n then returned (s.pc u) else s.pc u) t (.idle own) ∧
      (s.wake t q n own).chain = none ∧ (s.wake t q n own).hold = s.hold ∧
      (s.wake t q n own).word = s.word := by
  cases q <;> exact ⟨rfl, rfl, rfl, rfl⟩

end Sys

variable [Fintype T] {th : Threads T}

theorem Inv.waiters_of_wanted (hi : Inv th s f) (h : f.wanted = true) : f.waiters = true := by
  rw [hi.waiters]
  rcases hi.wanted.1 h with h' | h'
  · exact .inl h'
  · exact .inr (.inr (by rw [h']; simp))

theorem Inv.count_pos_of_busy (hi : Inv th s f) (h : s.word &&& lockBusy rw ≠ 0) : 0 < f.count := by
  rw [hi.word] at h
  cases rw with
  | writer => exact Nat.pos_of_ne_zero fun h0 => h ((and_locked hi.fits).2 h0)
  | reader =>
    rw [lockBusy, Ne, and_writeClaimed hi.fits] at h
    by_contra h0
    obtain ⟨⟨ww, hw, rfl⟩, -⟩ := hi.shape.of_count_eq_zero (by omega)
    have hww : ww = true := by simpa using h
    exact h0 (hi.held (hi.waiters_of_wanted hww))

theorem Inv.critical (hi : Inv th s f) (h : (s.pc t).critical = true) : s.chain = some t := (hi.chain t).2 h

/-! ## Ways to sleep -/

variable [DecidableEq T]

/-- A step of the thread that has the lock of the chain, or that takes it, up to a sleep. It may set
waiting bits. -/
theorem Inv.chained (hi : Inv th s f) (f' : Fields) (hc : s.chain = none ∨ s.chain = some t)
    (hq : Quiet (s.pc t))
    (hp : ∀ q n own, p ≠ .wakeup q n own) (hsleep : ∀ rw, s.pc t ≠ .asleep rw) (hsleep' : ∀ rw,
      p ≠ .asleep rw)
    (hdown : p.downgrading = (s.pc t).downgrading) (hcount : f'.count = f.count)
      (hwr : f'.wrlock = f.wrlock)
    (hwaiters : f'.waiters = true ↔ f.waiters = true ∨ ∃ rw, p = .enterBlock rw)
    (hwanted : f'.wanted = true ↔ f.wanted = true ∨ p = .enterBlock .writer)
    (hheld : f'.waiters = true → 0 < f.count)
    (hpend : f'.waiters = true → f.wrlock = false → f'.wanted = false → f.waiters = true)
    (hok : PcOk (th.addr t) f' False (s.hold t) p) :
    Inv th { s.go t p with word := f'.word, chain := if p.critical then some t else none } f' := by
  obtain ⟨hw0, hb0⟩ := Sys.quiet hq hc
  set s' : Sys T := { s.go t p with word := f'.word, chain := if p.critical then some t else none } with hs'
  have hself : s'.pc t = p := update_self ..
  have hpc : ∀ u, u ≠ t → s'.pc u = s.pc u := fun u hu => update_of_ne hu _ _
  have hqueue : ∀ q, s'.queue q = s.queue q := fun q => by cases q <;> rfl
  have hchain : ∀ u, s'.chain = some u ↔ u = t ∧ p.critical = true := fun u => by
    rw [show s'.chain = if p.critical then some t else none from rfl]
    cases p.critical <;> simp [eq_comm]
  have hw' : ∀ q, s'.waking q = 0 := fun q => by
    by_cases hcr : p.critical = true
    · exact Sys.waking_quiet ((hchain t).2 ⟨rfl, hcr⟩) (by rw [hself]; exact hp) q
    · refine Sys.waking_none ?_ q
      rw [show s'.chain = if p.critical then some t else none from rfl, if_neg hcr]
  have hb' : ∀ rw, s'.blocking = some rw ↔ p = .enterBlock rw := fun rw => by
    by_cases hb : ∃ rw', p = .enterBlock rw'
    · obtain ⟨rw', hb⟩ := hb
      rw [Sys.blocking_block ((hchain t).2 ⟨rfl, by rw [hb]; rfl⟩) (hself.trans hb), hb]
      simp
    have hnone : s'.blocking = none := by
      by_cases hcr : p.critical = true
      · exact Sys.blocking_quiet ((hchain t).2 ⟨rfl, hcr⟩) (by rw [hself]; exact fun rw h => hb ⟨rw, h⟩)
      · refine Sys.blocking_none ?_
        rw [show s'.chain = if p.critical then some t else none from rfl, if_neg hcr]
    rw [hnone]
    exact iff_of_false (by simp) fun h => hb ⟨rw, h⟩
  refine ⟨rfl, ?_, ?_, ?_, ?_, ?_, ?_, ?_, ?_, ?_, ?_, ?_⟩
  · have hshape := hi.shape
    obtain ⟨c, wl, ww, hw⟩ := f
    obtain ⟨c', wl', ww', hw'⟩ := f'
    obtain rfl : c' = c := hcount
    obtain rfl : wl' = wl := hwr
    cases hshape with
    | write o _ _ ho hother => exact .write o _ _ ho hother
    | read _ _ hno => exact .read _ _ hno
  · intro u rw
    rw [hqueue, hi.mem]
    by_cases hu : u = t
    · subst hu
      rw [hself]
      exact iff_of_false (hsleep rw) (hsleep' rw)
    · rw [hpc u hu]
  · intro rw
    exact hi.nodup rw
  · intro u
    rw [hchain]
    by_cases hu : u = t
    · subst hu
      rw [hself]
      simp
    · rw [hpc u hu, ← hi.chain]
      refine iff_of_false (fun h => hu h.1) fun h => ?_
      rcases hc with hc | hc <;> rw [h] at hc
      · simp at hc
      · exact hu (Option.some.inj hc)
  · intro q
    rw [hw']
    exact Nat.zero_le _
  · have hblock : s'.blocking ≠ none ↔ ∃ rw, p = .enterBlock rw := by
      rw [Option.ne_none_iff_exists']
      exact exists_congr hb'
    rw [hwaiters, hi.waiters, Sys.Waiters, Sys.Waiters, hb0, hblock]
    simp only [Sys.remaining_of_waking hw0, Sys.remaining_of_waking hw', hqueue, ne_eq,
      not_true_eq_false, or_false, or_assoc]
  · rw [hwanted, hi.wanted, Sys.Wanted, Sys.Wanted, hb0, hb']
    simp only [Sys.remaining_of_waking hw0, Sys.remaining_of_waking hw', hqueue, reduceCtorEq, or_false]
  · rwa [hcount]
  · intro h1 h2 h3
    have hww : f.wanted = false := by
      by_contra h
      rw [hwanted.2 (.inl (by simpa using h))] at h3
      simp at h3
    obtain ⟨d, hd⟩ := hi.pend (hpend h1 (hwr ▸ h2) h3) (hwr ▸ h2) hww
    refine ⟨d, ?_⟩
    by_cases hu : d = t
    · subst hu
      rw [hself, hdown, hd]
    · rw [hpc d hu, hd]
  · have hdg : ∀ d, (s'.pc d).downgrading = (s.pc d).downgrading := fun d => by
      by_cases hu : d = t
      · subst hu
        rw [hself, hdown]
      · rw [hpc d hu]
    intro d d'
    rw [hdg, hdg]
    exact hi.one d d'
  · intro u
    by_cases hu : u = t
    · subst hu
      rw [hself]
      exact hok.congr (fun rw h => absurd h (hsleep' rw)) (fun _ h => h) (fun _ _ h1 h2 => ⟨h1, h2⟩)
    · rw [hpc u hu]
      exact (hi.ok u).congr
        (fun _ _ => iff_of_false (Sys.not_granted_of_waking hw0 u) (Sys.not_granted_of_waking hw' u))
        (fun _ h => hwaiters.2 (.inl h)) (fun _ _ h1 h2 => ⟨hcount.trans h1, hwanted.2 (.inl h2)⟩)

def Pc.quiet : Pc → Bool
  | .wakeup _ _ _ | .enterBlock _ | .asleep _ => false
  | _ => true

theorem Quiet.of_eq {q : Pc} (h : p = q) (hq : q.quiet = true) : Quiet p ∧ ∀ rw, p ≠ .asleep rw := by
  subst h
  cases p <;> first | (cases hq; done) | exact ⟨⟨by simp, by simp⟩, by simp⟩

theorem Inv.chainedGo {q : Pc} (hi : Inv th s f) (hc : s.chain = none ∨ s.chain = some t) (hpc : s.pc t = q)
    (hq : q.quiet = true) (hp : p.quiet = true) (hdown : p.downgrading = q.downgrading)
    (hok : PcOk (th.addr t) f False (s.hold t) p) :
    ∃ f', Inv th { s.go t p with chain := if p.critical then some t else none } f' := by
  obtain ⟨hfrom, hawake⟩ := Quiet.of_eq hpc hq
  obtain ⟨hto, hawake'⟩ := Quiet.of_eq rfl hp
  have h := hi.chained f hc hfrom hto.wakeup hawake hawake' (hpc ▸ hdown) rfl rfl
    ⟨.inl, fun h => h.elim id fun ⟨rw, h⟩ => absurd h (hto.block rw)⟩
    ⟨.inl, fun h => h.elim id fun h => absurd h (hto.block _)⟩ hi.held (fun h _ _ => h) hok
  rw [← hi.word] at h
  exact ⟨f, h⟩

theorem Inv.lookup {q : Pc} (hi : Inv th s f) (hpc : s.pc t = q) (h : s.lookup t p = some s')
    (hok : PcOk (th.addr t) f False (s.hold t) p) (hq : q.quiet = true) (hp : p.quiet = true)
    (hcrit : p.critical = true) (hdown : p.downgrading = q.downgrading) : ∃ f', Inv th s' f' := by
  unfold Sys.lookup at h
  split at h
  · rename_i hc
    cases h
    have hi' := hi.chainedGo (.inl hc) hpc hq hp hdown hok
    rwa [if_pos hcrit] at hi'
  · simp at h

theorem Fields.word_or_lockWait (hf : f.Fits) (rw : Krw) :
    f.word ||| lockWait rw = { f with waiters := true, wanted := f.wanted || decide (rw =
      Krw.writer) }.word := by
  cases rw with
  | reader =>
    rw [lockWait, word_or_waiters hf]
    simp
  | writer =>
    rw [lockWait, word_or_both hf]
    simp

section

variable (hi : Inv th s f)
include hi

theorem Inv.enterTest (hpc : s.pc t = .enterTest rw) : ∃ f', Inv th (s.go t (
      if s.word &&& lockBusy rw = 0 then .enterAgain rw
      else if s.word ||| lockWait rw = s.word then .enterBlock rw
      else .enterWait rw s.word)) f' := by
  have hok := hi.okAt hpc
  have hc := hi.critical (by rw [hpc]; rfl)
  obtain ⟨hq, hawake⟩ := Quiet.of_eq hpc rfl
  split
  · rw [← Sys.go_chain hc rfl]
    exact hi.chainedGo (.inr hc) hpc rfl rfl rfl hok
  rename_i hbusy
  split_ifs with hset
  · rw [hi.word, word_or_lockWait hi.fits] at hset
    have heq := word_inj (by exact hi.fits) hi.fits hset
    have hwaiters : f.waiters = true := by rw [← heq]
    have hwanted : rw = .writer → f.wanted = true := fun h => by
      rw [← heq, h]
      simp
    have h := hi.chained f (p := .enterBlock rw) (.inr hc) hq (by simp) hawake (by simp)
      (by rw [hpc]; rfl) rfl rfl ⟨.inl, fun _ => hwaiters⟩ ⟨.inl,
        fun h => h.elim id fun h => hwanted (by simpa using h)⟩
      hi.held (fun h _ _ => h) hok
    rw [← hi.word] at h
    rw [← Sys.go_chain hc rfl]
    exact ⟨f, h⟩
  · rw [← Sys.go_chain hc rfl]
    exact hi.chainedGo (.inr hc) hpc rfl rfl rfl ⟨hok, hbusy⟩

theorem Inv.enterWait {old : Word} (hpc : s.pc t = .enterWait rw old) :
    ∃ f', Inv th (if s.word = old then { s.go t (.enterBlock rw) with word := old ||| lockWait rw }
      else s.go t (.enterTest rw)) f' := by
  have hok := hi.okAt hpc
  have hc := hi.critical (by rw [hpc]; rfl)
  obtain ⟨hq, hawake⟩ := Quiet.of_eq hpc rfl
  split_ifs with heq
  · subst heq
    have hpos := hi.count_pos_of_busy hok.2
    have hbusy := hok.2
    rw [hi.word] at hbusy
    rw [hi.word, word_or_lockWait hi.fits]
    refine ⟨{ f with waiters := true, wanted := f.wanted || decide (rw = Krw.writer) }, ?_⟩
    have h := hi.chained { f with waiters := true, wanted := f.wanted || decide (rw = Krw.writer) }
      (p := .enterBlock rw) (.inr hc) hq (by simp) hawake (by simp) (by rw [hpc]; rfl) rfl rfl
      (by simp) (by simp) (fun _ => hpos) ?_ hok.1
    · rwa [if_pos (show (Pc.enterBlock rw).critical = true from rfl), ← hc] at h
    -- a reader waits for a writer that holds the lock or wants it
    intro _ hwr hww
    exfalso
    rw [Bool.or_eq_false_iff] at hww
    cases rw with
    | writer => cases hww.2
    | reader => exact hbusy ((and_writeClaimed hi.fits).2 ⟨hwr, hww.1⟩)
  · rw [← Sys.go_chain hc rfl]
    exact hi.chainedGo (.inr hc) hpc rfl rfl rfl hok.1

theorem Inv.enterAgain (hpc : s.pc t = .enterAgain rw) :
    ∃ f', Inv th { s.go t (.enter rw) with chain := none } f' := by
  have hok := hi.okAt hpc
  have hc := hi.critical (by rw [hpc]; rfl)
  exact hi.chainedGo (.inr hc) hpc rfl rfl rfl hok

theorem Inv.enterBlock (hpc : s.pc t = .enterBlock rw) : Inv th (s.block t rw) f := by
  have hok := hi.okAt hpc
  have hc := hi.critical (by rw [hpc]; rfl)
  obtain ⟨hpcs, hchain, hhold, hword⟩ := Sys.pc_block s t rw
  have hw0 : ∀ q, s.waking q = 0 := Sys.waking_quiet hc (by simp [hpc])
  have hw' : ∀ q, (s.block t rw).waking q = 0 := Sys.waking_none hchain
  have hb0 : s.blocking = some rw := Sys.blocking_block hc hpc
  have hb' : (s.block t rw).blocking = none := Sys.blocking_none hchain
  have hself : (s.block t rw).pc t = .asleep rw := by rw [hpcs, update_self]
  have hpc' : ∀ u, u ≠ t → (s.block t rw).pc u = s.pc u := fun u hu => by rw [hpcs, update_of_ne hu]
  have hnot : ∀ q, t ∉ s.queue q := fun q h => by
    rw [hi.mem, hpc] at h
    simp at h
  have hdg : ∀ d, ((s.block t rw).pc d).downgrading = (s.pc d).downgrading := fun d => by
    by_cases hd : d = t
    · subst hd
      rw [hself, hpc]
      rfl
    · rw [hpc' d hd]
  refine ⟨hword.trans hi.word, hhold ▸ hi.shape, ?_, ?_, ?_, ?_, ?_, ?_, hi.held, ?_, ?_, ?_⟩
  · intro u q
    rw [Sys.queue_block]
    by_cases hu : u = t
    · subst hu
      rw [hself]
      split_ifs with hq
      · rw [mem_sleepqInsert, hq]
        simp
      · exact iff_of_false (hnot q) (by simpa using fun h => hq h.symm)
    · rw [hpc' u hu, ← hi.mem]
      split
      · rw [mem_sleepqInsert]
        simp [hu]
      · rfl
  · intro q
    rw [Sys.queue_block]
    split
    · exact nodup_sleepqInsert (hnot q) (hi.nodup q)
    · exact hi.nodup q
  · intro u
    rw [hchain]
    refine iff_of_false (by simp) ?_
    by_cases hu : u = t
    · subst hu
      rw [hself]
      exact Bool.false_ne_true
    · rw [hpc' u hu, ← hi.chain, hc]
      simpa using fun h : t = u => hu h.symm
  · intro q
    rw [hw']
    exact Nat.zero_le _
  · have hf : f.waiters = true := hi.waiters.2 (.inr (.inr (by simp [hb0])))
    refine iff_of_true hf ?_
    have hne : (s.block t rw).remaining rw ≠ [] := by
      rw [Sys.remaining_of_waking hw', Sys.queue_block, if_pos rfl]
      exact sleepqInsert_ne_nil _ _ _
    cases rw with
    | writer => exact .inl hne
    | reader => exact .inr (.inl hne)
  · rw [hi.wanted, Sys.Wanted, Sys.Wanted, hb0, hb', Sys.remaining_of_waking hw',
      Sys.remaining_of_waking hw0, Sys.queue_block]
    cases rw with
    | writer => simp [sleepqInsert_ne_nil]
    | reader => simp
  · intro h1 h2 h3
    obtain ⟨d, hd⟩ := hi.pend h1 h2 h3
    exact ⟨d, by rw [hdg, hd]⟩
  · intro d d'
    rw [hdg, hdg]
    exact hi.one d d'
  · intro u
    rw [hhold]
    by_cases hu : u = t
    · subst hu
      rw [hself]
      exact ⟨fun h => absurd h (Sys.not_granted_of_waking hw' u), fun _ => hok⟩
    · rw [hpc' u hu]
      exact (hi.ok u).congr
        (fun _ _ => iff_of_false (Sys.not_granted_of_waking hw0 u) (Sys.not_granted_of_waking hw' u))
        (fun _ h => h) (fun _ _ h1 h2 => ⟨h1, h2⟩)

/-! ## Wakeups -/

theorem Inv.wakeup {q : Krw} {n : ℕ} {own : Option Krw} (hpc : s.pc t = .wakeup q n own) :
    Inv th (s.wake t q n own) f := by
  have hok := hi.okAt hpc
  have hc := hi.critical (by rw [hpc]; rfl)
  obtain ⟨hpcs, hchain, hhold, hword⟩ := Sys.pc_wake s t q n own
  have hw0 : ∀ r, s.waking r = if q = r then n else 0 := Sys.waking_wakeup hc hpc
  have hw' : ∀ r, (s.wake t q n own).waking r = 0 := Sys.waking_none hchain
  have hb0 : s.blocking = none := Sys.blocking_quiet hc (by simp [hpc])
  have hb' : (s.wake t q n own).blocking = none := Sys.blocking_none hchain
  have hself : (s.wake t q n own).pc t = .idle own := by rw [hpcs, update_self]
  have hwoken : ∀ u, u ∈ (s.queue q).take n → u ≠ t ∧ s.pc u = .asleep q ∧
    (s.wake t q n own).pc u = .idle (some q) := by
    intro u hu
    have hsleep := (hi.mem u q).1 (mem_of_mem_take hu)
    have hne : u ≠ t := by
      rintro rfl
      rw [hpc] at hsleep
      simp at hsleep
    refine ⟨hne, hsleep, ?_⟩
    rw [hpcs, update_of_ne hne, if_pos hu, hsleep]
    rfl
  have hrest : ∀ u, u ≠ t → u ∉ (s.queue q).take n → (s.wake t q n own).pc u = s.pc u := fun u hu hn => by
    rw [hpcs, update_of_ne hu, if_neg hn]
  have hgranted : ∀ u, s.granted u ↔ u ∈ (s.queue q).take n := fun u => by
    constructor
    · rintro ⟨r, hr⟩
      rw [hw0] at hr
      split at hr
      · rename_i h
        rwa [h]
      · simp at hr
    · intro h
      exact ⟨q, by rwa [hw0, if_pos rfl]⟩
  have hremaining : ∀ r, (s.wake t q n own).remaining r = s.remaining r := fun r => by
    rw [Sys.remaining_of_waking hw', Sys.queue_wake, Sys.remaining, hw0]
    split
    · rfl
    · rw [drop_zero]
  have hdg : ∀ d, ((s.wake t q n own).pc d).downgrading = (s.pc d).downgrading := fun d => by
    by_cases hd : d = t
    · subst hd
      rw [hself, hpc]
      rfl
    · by_cases hu : d ∈ (s.queue q).take n
      · obtain ⟨-, h1, h2⟩ := hwoken d hu
        rw [h1, h2]
        rfl
      · rw [hrest d hd hu]
  refine ⟨hword.trans hi.word, hhold ▸ hi.shape, ?_, ?_, ?_, ?_, ?_, ?_, hi.held, ?_, ?_, ?_⟩
  · intro u r
    rw [Sys.queue_wake]
    by_cases hd : u = t
    · subst hd
      rw [hself]
      refine iff_of_false (fun h => ?_) (by simp)
      have hmem : u ∈ s.queue r := by
        split at h
        · exact mem_of_mem_drop h
        · exact h
      rw [hi.mem, hpc] at hmem
      simp at hmem
    · by_cases hu : u ∈ (s.queue q).take n
      · obtain ⟨-, h1, h2⟩ := hwoken u hu
        rw [h2]
        refine iff_of_false (fun h => ?_) (by simp)
        split at h
        · rename_i hqr
          subst hqr
          exact disjoint_take_drop (hi.nodup q) (Nat.le_refl n) hu h
        · rename_i hqr
          rw [hi.mem, h1] at h
          exact hqr (by simpa using h)
      · rw [hrest u hd hu, ← hi.mem]
        split_ifs with hqr
        · subst hqr
          refine ⟨mem_of_mem_drop, fun h => ?_⟩
          rw [← take_append_drop n (s.queue q), mem_append] at h
          exact h.resolve_left hu
        · rfl
  · intro r
    rw [Sys.queue_wake]
    split
    · exact (hi.nodup r).sublist (drop_sublist n _)
    · exact hi.nodup r
  · intro u
    rw [hchain]
    refine iff_of_false (by simp) ?_
    by_cases hd : u = t
    · subst hd
      rw [hself]
      exact Bool.false_ne_true
    · by_cases hu : u ∈ (s.queue q).take n
      · rw [(hwoken u hu).2.2]
        exact Bool.false_ne_true
      · rw [hrest u hd hu, ← hi.chain, hc]
        simpa using fun h : t = u => hd h.symm
  · intro r
    rw [hw']
    exact Nat.zero_le _
  · rw [hi.waiters, Sys.Waiters, Sys.Waiters, hb0, hb', hremaining, hremaining]
  · rw [hi.wanted, Sys.Wanted, Sys.Wanted, hb0, hb', hremaining]
  · intro h1 h2 h3
    obtain ⟨d, hd⟩ := hi.pend h1 h2 h3
    exact ⟨d, by rw [hdg, hd]⟩
  · intro d d'
    rw [hdg, hdg]
    exact hi.one d d'
  · intro u
    rw [hhold]
    by_cases hd : u = t
    · subst hd
      rwa [hself]
    by_cases hu : u ∈ (s.queue q).take n
    · obtain ⟨-, h1, h2⟩ := hwoken u hu
      have hold := hi.ok u
      rw [h1] at hold
      rw [h2]
      exact hold.1 ((hgranted u).2 hu)
    · rw [hrest u hd hu]
      exact (hi.ok u).congr
        (fun _ _ => iff_of_false (fun h => hu ((hgranted u).1 h)) (Sys.not_granted_of_waking hw' u))
        (fun _ h => h) (fun _ _ h1 h2 => ⟨h1, h2⟩)

end

end Osol.Rwlock
