import Osol.Rwlock.Chain

/-!
# The hand-off

The last holder of a lock with waiters gives it to the readers that come before the first writer, or
to that writer, and a thread that downgrades lets those readers in. The new owners are still on
their queue.
-/

namespace Osol.Rwlock

open Function List Sys Fields

variable {T : Type} {s s' : Sys T} {f f' : Fields} {t : T} {p : Pc}

/-! ## Readers to wake -/

namespace Sys

theorem rwReadersToWake_le (s : Sys T) : s.rwReadersToWake ≤ (s.queue .reader).length :=
  ( takeWhile_prefix _).length_le

theorem rwReadersToWake_of_nil (h : s.writers = []) : s.rwReadersToWake = s.readers.length := by
  unfold rwReadersToWake
  simp only [h]
  congr 1
  refine takeWhile_eq_self_iff.2 fun u _ => ?_
  rw [decide_eq_true_iff]
  omega

theorem tsWaiters_eq (s : Sys T) : s.tsWaiters = (s.queue .writer).length + (s.queue .reader).length := rfl

def left (s : Sys T) (q : Krw) (n : ℕ) (r : Krw) : List T := if q = r then (s.queue r).drop n else s.queue r

theorem left_ne_nil (s : Sys T) (q : Krw) (n : ℕ) (hn : n ≤ (s.queue q).length) :
    s.left q n .writer ≠ [] ∨ s.left q n .reader ≠ [] ↔ n < s.tsWaiters := by
  rw [← length_pos_iff, ← length_pos_iff, tsWaiters_eq]
  unfold left
  cases q with
  | writer =>
    rw [if_pos rfl, if_neg (by simp), length_drop]
    omega
  | reader =>
    rw [if_neg (by simp), if_pos rfl, length_drop]
    omega

end Sys

variable [Fintype T] {th : Threads T}

theorem Inv.hold_of_exiting (hi : Inv th s f)
    (h : (s.pc t).exiting = true ∨ (s.pc t).downgrading = true) : s.hold t ≠ none := by
  have hok := hi.ok t
  cases hpc : s.pc t with
  | exitLookup old =>
    rw [hpc] at hok
    obtain ⟨⟨m, hm, -⟩, -⟩ := hok
    rw [hm]
    simp
  | exitHandoff old =>
    rw [hpc] at hok
    obtain ⟨⟨m, hm, -⟩, -⟩ := hok
    rw [hm]
    simp
  | downgradeLookup =>
    rw [hpc] at hok
    rw [hok.1]
    simp
  | downgradeHandoff =>
    rw [hpc] at hok
    rw [hok.1]
    simp
  | _ => simp [hpc, Pc.exiting, Pc.downgrading] at h

/-! ## New owners -/

variable [DecidableEq T]

theorem Inv.handoff {q : Krw} {n : ℕ} (hi : Inv th s f) (own : Option Krw) (hc : s.chain = some t)
    (hq : Quiet (s.pc t)) (hsleep : ∀ rw, s.pc t ≠ .asleep rw) (hn : n ≤ (s.queue q).length)
    (hothers : ∀ u, u ≠ t → (s.pc u).exiting = false ∧ (s.pc u).downgrading = false)
    (hshape : Shape th (Sys.grant (update s.hold t own) ((s.queue q).take n) q) f')
    (hwaiters : f'.waiters = true ↔ n < s.tsWaiters) (hwanted : f'.wanted = true ↔ s.left q n .writer ≠ [])
    (hheld : 0 < f'.count) (hpend : f'.waiters = true → f'.wrlock = false → f'.wanted = true) :
    Inv th { s.go t (.wakeup q n own) with
      word := f'.word
      hold := Sys.grant (update s.hold t own) ((s.queue q).take n) q } f' := by
  obtain ⟨hw0, hb0⟩ := Sys.quiet hq (.inr hc)
  set s' : Sys T := { s.go t (.wakeup q n own) with
    word := f'.word
    hold := Sys.grant (update s.hold t own) ((s.queue q).take n) q } with hs'
  have hself : s'.pc t = .wakeup q n own := update_self ..
  have hpc : ∀ u, u ≠ t → s'.pc u = s.pc u := fun u hu => update_of_ne hu _ _
  have hqueue : ∀ r, s'.queue r = s.queue r := fun r => by cases r <;> rfl
  have hw' : ∀ r, s'.waking r = if q = r then n else 0 := waking_wakeup (s := s') hc hself
  have hb' : s'.blocking = none := blocking_quiet hc (by rw [hself]; simp)
  have hleft : ∀ r, s'.remaining r = s.left q n r := fun r => by
    rw [Sys.remaining, hw', hqueue, Sys.left]
    split
    · rfl
    · rw [drop_zero]
  have hgranted : ∀ u, s'.granted u ↔ u ∈ (s.queue q).take n := fun u => by
    constructor
    · rintro ⟨r, hr⟩
      rw [hw', hqueue] at hr
      split at hr
      · rename_i h
        rwa [h]
      · simp at hr
    · intro h
      exact ⟨q, by rwa [hw', hqueue, if_pos rfl]⟩
  have hnot : t ∉ (s.queue q).take n := fun h => hsleep q ((hi.mem t q).1 (mem_of_mem_take h))
  have hdg : ∀ d, (s'.pc d).downgrading = false := fun d => by
    by_cases hd : d = t
    · rw [hd, hself]
      rfl
    · rw [hpc d hd, (hothers d hd).2]
  refine ⟨rfl, hshape, ?_, ?_, ?_, ?_, ?_, ?_, fun _ => hheld, ?_, ?_, ?_⟩
  · intro u r
    rw [hqueue, hi.mem]
    by_cases hu : u = t
    · subst hu
      rw [hself]
      exact iff_of_false (hsleep r) (by simp)
    · rw [hpc u hu]
  · intro r
    exact hi.nodup r
  · intro u
    by_cases hu : u = t
    · subst hu
      rw [hself]
      exact iff_of_true hc rfl
    · rw [hpc u hu]
      exact hi.chain u
  · intro r
    rw [hw', hqueue]
    split
    · rename_i h
      rwa [← h]
    · exact Nat.zero_le _
  · rw [hwaiters, ← s.left_ne_nil q n hn, Sys.Waiters, hleft, hleft, hb']
    simp
  · rw [hwanted, Sys.Wanted, hleft, hb']
    simp
  · intro h1 h2 h3
    rw [hpend h1 h2] at h3
    simp at h3
  · intro d d' h
    rw [hdg] at h
    simp at h
  · intro u
    rw [show s'.hold u = if u ∈ (s.queue q).take n then some q else update s.hold t own u from rfl]
    by_cases hu : u = t
    · subst hu
      rw [if_neg hnot, update_self, hself]
      exact rfl
    rw [update_of_ne hu, hpc u hu]
    by_cases hmem : u ∈ (s.queue q).take n
    · rw [if_pos hmem, (hi.mem u q).1 (mem_of_mem_take hmem)]
      exact ⟨fun _ => rfl, fun h => absurd ((hgranted u).2 hmem) h⟩
    rw [if_neg hmem]
    refine (hi.ok u).congr (fun _ _ => iff_of_false (not_granted_of_waking hw0 u)
      (mt (hgranted u).1 hmem)) (fun h => ?_) (fun h => ?_)
    · rw [(hothers u hu).1, (hothers u hu).2] at h
      simp at h
    · rw [(hothers u hu).1] at h
      simp at h

theorem Fields.word_or_ite {c : ℕ} {wl : Bool} (hf : (⟨c, wl, false, false⟩ : Fields).Fits)
    (hw ww : Prop) [Decidable hw]
    [Decidable ww] {w : Word} (h : w = (⟨c, wl, false, false⟩ : Fields).word) :
    (if ww then (if hw then w ||| rwHasWaiters else w) ||| rwWriteWanted else if hw then w |||
      rwHasWaiters else w) = (⟨c, wl, decide ww, decide hw⟩ : Fields).word := by
  have hwait : (if hw then w ||| rwHasWaiters else w) = (⟨c, wl, false, decide hw⟩ : Fields).word := by
    rw [h, word_or_waiters hf]
    by_cases h' : hw <;> simp [h']
  have hf' : (⟨c, wl, false, decide hw⟩ : Fields).Fits := hf
  rw [hwait, word_or_wanted hf']
  by_cases h' : ww <;> simp [h']

theorem Fields.word_downgraded (hwait : f.waiters = true) {n m : ℕ} (hle : n ≤ m) (hm : 0 < m) :
    (if 0 < n then f.word + (if m = n then BitVec.ofNat 64 n * rwReadLock - rwHasWaiters
        else BitVec.ofNat 64 n * rwReadLock) else f.word) =
      ({ f with count := f.count + n, waiters := decide (n < m) } : Fields).word := by
  by_cases hn : 0 < n
  · rw [if_pos hn]
    by_cases hmn : m = n
    · rw [if_pos hmn, BitVec.sub_eq_add_neg, ← BitVec.add_assoc, word_add_reads, ← BitVec.sub_eq_add_neg]
      exact word_sub_eq (by simp [Fields.low, hwait, hmn, Nat.add_assoc])
    · rw [if_neg hmn, word_add_reads, decide_eq_true (by omega), ← hwait]
  · obtain rfl : n = 0 := by omega
    rw [if_neg hn, decide_eq_true hm, ← hwait]
    rfl

theorem Inv.exitHandoff {old : Word} (hi : Inv th s f) (hpc : s.pc t = .exitHandoff old) :
    ∃ f', Inv th (Sys.handoff th s t old) f' := by
  obtain ⟨⟨m, hm, hiff⟩, hwait, hrd⟩ := hi.okAt hpc
  have hc := hi.critical (by rw [hpc]; rfl)
  obtain ⟨hq, hsleep⟩ := Quiet.of_eq hpc rfl
  have hother : ∀ u, u ≠ t → s.hold u = none := by
    cases m with
    | writer => exact (hi.shape.of_writer hm).2
    | reader => exact hi.shape.alone hm (hrd hm).1
  have hothers : ∀ u, u ≠ t → (s.pc u).exiting = false ∧ (s.pc u).downgrading = false := fun u hu => by
    have h := mt hi.hold_of_exiting (not_not.2 (hother u hu))
    simpa using h
  have hnone : ∀ u, update s.hold t none u = none := fun u => by
    by_cases hu : u = t
    · rw [hu, update_self]
    · rw [update_of_ne hu, hother u hu]
  obtain ⟨hw0, hb0⟩ := Sys.quiet hq (.inr hc)
  have hqueued : s.writers ≠ [] ∨ s.readers ≠ [] := by
    have h := hi.waiters.1 hwait
    rw [Sys.Waiters, hb0, remaining_of_waking hw0, remaining_of_waking hw0] at h
    simpa [Sys.queue] using h
  unfold Sys.handoff
  dsimp only
  split
  · rename_i hcase
    have hle := s.rwReadersToWake_le
    have hshape : Shape th (Sys.grant (update s.hold t none)
      ((s.queue .reader).take s.rwReadersToWake) .reader)
        ⟨s.rwReadersToWake, false, decide (s.writers ≠ []), decide (s.tsWaiters > s.rwReadersToWake)⟩ := by
      have hlast : Shape th (update s.hold t none)
        ⟨0, false, decide (s.writers ≠ []), decide (s.tsWaiters > s.rwReadersToWake)⟩ :=
        Shape.removeLast hother
      have h := hlast.grantReaders rfl (l := (s.queue .reader).take s.rwReadersToWake)
        ((hi.nodup .reader).sublist (take_sublist _ _)) (fun u _ => hnone u)
      rwa [length_take, Nat.min_eq_left hle, Nat.zero_add] at h
    rw [word_or_ite hshape.fits _ _ (reads_eq _)]
    refine ⟨_, hi.handoff none hc hq hsleep hle hothers hshape ?_ ?_ hcase.2 ?_⟩
    · simp
    · simp [Sys.left, Sys.queue]
    -- without a writer all of the readers wake
    intro h1 _
    by_contra h3
    have hnil : s.writers = [] := by simpa using h3
    have hall := Sys.rwReadersToWake_of_nil hnil
    have hlt : s.tsWaiters > s.rwReadersToWake := by simpa using h1
    rw [Sys.tsWaiters, hnil, hall] at hlt
    simp at hlt
  · rename_i hcase
    have hwriters : s.writers ≠ [] := by
      cases m with
      | reader =>
        have h := hi.wanted.1 (hrd hm).2
        rw [Sys.Wanted, hb0, remaining_of_waking hw0] at h
        simpa [Sys.queue] using h
      | writer =>
        intro hnil
        have hall := Sys.rwReadersToWake_of_nil hnil
        have hpos := length_pos_iff.2 (hqueued.resolve_left (not_not.2 hnil))
        exact hcase ⟨hiff.2 rfl, by omega⟩
    split
    · rename_i hnil
      exact absurd hnil hwriters
    rename_i nextWriter link hcons
    have hlen : 1 ≤ (s.queue .writer).length := length_pos_iff.2 hwriters
    have hshape : Shape th (Sys.grant (update s.hold t none) ((s.queue .writer).take 1) .writer)
        (Fields.owned (th.addr nextWriter) (decide (link ≠ [])) (decide (s.tsWaiters > 1))) := by
      rw [Sys.queue, hcons]
      exact Shape.grantWriter hnone
    rw [word_or_ite (fits_owned _ false false) _ _ (writeLock_eq_word (th.aligned nextWriter)),
      show [nextWriter] = (s.queue .writer).take 1 by rw [Sys.queue, hcons]; rfl]
    refine ⟨_, hi.handoff none hc hq hsleep hlen hothers hshape ?_ ?_ ?_ ?_⟩
    · simp
    · simp [Sys.left, Sys.queue, hcons]
    · exact (Nat.zero_le _).trans_lt (Shape.owner_pos th nextWriter)
    · intro _ h
      simp at h

theorem Inv.downgradeHandoff (hi : Inv th s f) (hpc : s.pc t = .downgradeHandoff) :
    ∃ f', Inv th (s.downgraded t) f' := by
  obtain ⟨hm, hwait⟩ := hi.okAt hpc
  have hc := hi.critical (by rw [hpc]; rfl)
  obtain ⟨hq, hsleep⟩ := Quiet.of_eq hpc rfl
  obtain ⟨hw0, hb0⟩ := Sys.quiet hq (.inr hc)
  have hwr : f.wrlock = false := by
    obtain ⟨⟨ww, hw, rfl⟩, -⟩ := hi.shape.of_reader hm
    rfl
  -- nobody else is the last holder, or downgrades
  have hothers : ∀ u, u ≠ t → (s.pc u).exiting = false ∧ (s.pc u).downgrading = false := by
    intro u hu
    have hdg : (s.pc u).downgrading = false := by
      by_contra h
      exact hu (hi.one u t (by simpa using h) (by rw [hpc]; rfl))
    refine ⟨?_, hdg⟩
    have hexit : ∀ old, PcOk (th.addr u) f (s.granted u) (s.hold u) (.exitLookup old) → False := by
      rintro old ⟨⟨m, hmu, -⟩, -, hrd⟩
      cases m with
      | writer => exact (hi.shape.of_reader hm).2 u hmu
      | reader =>
        have h := hi.shape.alone hmu (hrd hmu).1 t hu.symm
        rw [hm] at h
        simp at h
    have hoku := hi.ok u
    cases hpu : s.pc u with
    | exitLookup old => rw [hpu] at hoku; exact (hexit old hoku).elim
    | exitHandoff old => rw [hpu] at hoku; exact (hexit old hoku).elim
    | _ => rfl
  have hqueued : 0 < s.tsWaiters := by
    have h := hi.waiters.1 hwait
    rw [Sys.Waiters, hb0, remaining_of_waking hw0, remaining_of_waking hw0] at h
    simp only [ne_eq, not_true_eq_false, or_false] at h
    rw [Sys.tsWaiters_eq]
    rcases h.imp length_pos_iff.2 length_pos_iff.2 with h | h <;> omega
  have hle := s.rwReadersToWake_le
  have hall : s.writers = [] → s.tsWaiters = s.rwReadersToWake := fun hnil => by
    rw [Sys.rwReadersToWake_of_nil hnil, Sys.tsWaiters, hnil]
    simp
  set n := s.rwReadersToWake with hn
  have hle' : n ≤ s.tsWaiters := hle.trans (Nat.le_add_left _ _)
  have hshape : Shape th (Sys.grant (update s.hold t (some .reader)) ((s.queue .reader).take n)
      .reader) { f with count := f.count + n, waiters := decide (n < s.tsWaiters) } := by
    have hf : Shape th s.hold { f with waiters := decide (n < s.tsWaiters) } := by
      obtain ⟨⟨ww, hw, rfl⟩, hno⟩ := hi.shape.of_reader hm
      exact .read _ _ hno
    have hupd : update s.hold t (some .reader) = s.hold := by rw [← hm, update_eq_self]
    have h := hf.grantReaders hwr (l := (s.queue .reader).take n)
      ((hi.nodup .reader).sublist (take_sublist _ _)) (fun u hu => by
        have hok := hi.ok u
        rw [(hi.mem u .reader).1 (mem_of_mem_take hu)] at hok
        exact hok.2 (not_granted_of_waking hw0 u))
    rw [length_take, Nat.min_eq_left hle] at h
    rwa [hupd]
  refine ⟨{ f with count := f.count + n, waiters := decide (n < s.tsWaiters) }, ?_⟩
  have h := hi.handoff (some .reader) hc hq hsleep hle hothers hshape (by simp) ?_
    (Nat.add_pos_left (hi.shape.count_pos (by rw [hm]; simp)) n) ?_
  · rwa [← hm, update_eq_self, hm, ← word_downgraded hwait hle' hqueued, ← hi.word] at h
  · rw [show f.wanted = true ↔ _ from hi.wanted, Sys.Wanted, hb0, remaining_of_waking hw0]
    simp [Sys.left]
  intro h1 _
  by_contra h3
  have hnil : s.writers = [] := by
    have hnw := mt hi.wanted.2 h3
    rw [Sys.Wanted, hb0, remaining_of_waking hw0] at hnw
    simpa [Sys.queue] using hnw
  have hlt : n < s.tsWaiters := by simpa using h1
  have := hall hnil
  omega

end Osol.Rwlock
