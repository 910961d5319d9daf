import Osol.Cyclic.SoftThread

/-!
# The two levels during a resize

Each level counts itself in `cyp_modify_levels` after it has switched its buffers. The second
one posts `cyp_modify_wait`.
-/

namespace Osol.Cyc

open Function Sys Bool Option

variable {s s' : Shared} {l : SoftLevel} {t t' : Thread} {q q' : List ℕ}

/-! ## What a step does to the resize -/

/-- The soft interrupt is between its first access and its last one. -/
def Thread.Busy (t : Thread) : Prop := t.pc ≠ .idle ∧ t.pc ≠ .post

structure SameResize (s s' : Shared) : Prop where
  modifier : s'.modifier = s.modifier
  levels : s'.cpu.modifyLevels = s.cpu.modifyLevels
  posts : s'.posts = s.posts
  settled : ∀ l, s'.Settled l ↔ s.Settled l
  posted : ∀ l, s.cpu.posted l = true → s'.cpu.posted l = true

theorem SameResize.refl (s : Shared) : SameResize s s := ⟨rfl, rfl, rfl, fun _ => Iff.rfl, fun _ => id⟩

/-- What an access of `cyclic_softint` means for the resize. -/
inductive Pace (s : Shared) (l : SoftLevel) (t : Thread) (s' : Shared) (t' : Thread) : Prop where
  | walk (same : SameResize s s') (busy : t.Busy) (busy' : t'.Busy)
    (resized : t'.resized = t.resized)
  | leave (same : s' = s) (busy : t.Busy) (idle : t'.pc = .idle) (resized : t.resized = false)
    (settled : s.Settled l)
  | switch (same : s' = s.setSoftbuf l { s.cpu.softbuf l with soft := (s.cpu.softbuf l).hard })
    (busy : t.Busy) (unsettled : ¬ s.Settled l) (top : t'.pc = .top) (resized : t'.resized = true)
  | count (levels : s.cpu.modifyLevels = t.lev)
    (same : s' = { s with cpu := { s.cpu with modifyLevels := t.lev + 1 } }) (busy : t.Busy)
    (resized : t.resized = true) (post : t' = { t with pc := .post })
  | wake (post : t.pc = .post) (lev : t.lev = 1)
    (same : s' = { s.semaV with posts := s.posts + 1 }) (idle : t'.pc = .idle)
  | hand (post : t.pc = .post) (lev : t.lev ≠ 1)
    (same : s' = if l = .lock then { s with cpu := s.cpu.softint .low } else s)
    (idle : t'.pc = .idle)

theorem Pace.read (hp : t.Busy) (hp' : t'.Busy) (hr : t'.resized = t.resized) : Pace s l t s t' :=
  .walk (.refl s) hp hp' hr

theorem sameResize_count (s : Shared) (ndx handler arg : ℕ) : SameResize s (s.count ndx handler arg) := by
  unfold Shared.count
  split
  · exact ⟨rfl, rfl, rfl, fun _ => Iff.rfl, fun _ => id⟩
  · exact .refl s

theorem sameResize_setPend (s : Shared) (g ndx pend : ℕ) : SameResize s (s.setPend g ndx pend) := by
  unfold Shared.setPend
  split <;> exact ⟨rfl, rfl, rfl, fun _ => Iff.rfl, fun _ => id⟩

theorem sameResize_setCons (s : Shared) (l : SoftLevel) (b : Bool) (n : ℕ) :
    SameResize s (s.setSoftbuf l ((s.cpu.softbuf l).setCons b n)) := by
  refine ⟨rfl, rfl, rfl, fun l' => ?_, fun _ => id⟩
  by_cases hl : l' = l
  · subst hl
    rw [settled_setSoftbuf]
    rfl
  · unfold Shared.Settled
    rw [setSoftbuf_of_ne hl]

section Pace

variable (h : LevelInv s l t q q')

include h

theorem LevelInv.pace_checkHard (hp : t.pc = .checkHard) : Pace s l t s { t with
    pc := if t.soft ≠ (s.cpu.softbuf l).hard then .switchCyc
      else if t.resized then .readLev else .idle } := by
  have hbusy : t.Busy := by
    unfold Thread.Busy
    rw [hp]
    simp
  have hsoft : t.soft = (s.cpu.softbuf l).soft := by
    have hk := h.known_at hp
    exact hk.2.1
  split
  next => exact .read hbusy ⟨by simp, by simp⟩ rfl
  next he =>
    split
    next => exact .read hbusy ⟨by simp, by simp⟩ rfl
    next hr =>
      refine .leave rfl hbusy rfl (by simpa using hr) ?_
      rw [hsoft] at he
      exact (not_not.1 he).symm

theorem LevelInv.pace (hstep : softStep s l t = some (s', t')) : Pace s l t s' t' := by
  have hbusy : ∀ {pc : SoftPc}, t.pc = pc → pc ≠ .idle → pc ≠ .post → t.Busy := by
    rintro pc rfl h1 h2
    exact ⟨h1, h2⟩
  unfold softStep at hstep
  cases hp : t.pc <;> rw [hp] at hstep <;> dsimp only at hstep
  case idle => cases hstep
  case checkHard =>
    cases hstep
    exact h.pace_checkHard hp
  case readHandler | readArg | rpendHandler | rpendArg =>
    obtain ⟨a, -, hr⟩ := map_eq_some_iff.1 hstep
    cases hr
    exact .read (hbusy hp (by simp) (by simp)) ⟨by simp, by simp⟩ rfl
  case reread =>
    obtain ⟨a, -, hr⟩ := map_eq_some_iff.1 hstep
    cases hr
    refine .read (hbusy hp (by simp) (by simp)) ?_ rfl
    constructor <;> dsimp only <;> split <;> simp
  case cas =>
    obtain ⟨a, -, hr⟩ := map_eq_some_iff.1 hstep
    split at hr <;> cases hr
    · refine .walk (sameResize_setPend ..) (hbusy hp (by simp) (by simp)) ?_ rfl
      constructor <;> dsimp only <;> split <;> simp
    · exact .read (hbusy hp (by simp) (by simp)) ⟨by simp, by simp⟩ rfl
  case test | checkState =>
    cases hstep
    refine .read (hbusy hp (by simp) (by simp)) ?_ rfl
    constructor <;> dsimp only <;> split <;> simp
  case call =>
    cases hstep
    exact .walk (sameResize_count ..) (hbusy hp (by simp) (by simp)) ⟨by simp, by simp⟩ rfl
  case rpendCall =>
    split at hstep <;> cases hstep
    · exact .walk ⟨rfl, rfl, rfl, fun _ => Iff.rfl, fun _ => id⟩ (hbusy hp (by simp) (by simp))
        ⟨by simp, by simp⟩ rfl
    · exact .walk (sameResize_count ..) (hbusy hp (by simp) (by simp)) ⟨by simp, by simp⟩ rfl
  case advance =>
    cases hstep
    exact .walk (sameResize_setCons s l t.soft _) (hbusy hp (by simp) (by simp))
      ⟨by simp, by simp⟩ rfl
  case writeSoft =>
    have hk := h.known_at hp
    cases hstep
    exact .switch (by rw [hk.2.2.2]) (hbusy hp (by simp) (by simp)) hk.1 rfl rfl
  case casLev =>
    have hk := h.known_at hp
    split at hstep <;> cases hstep
    · exact .count ‹_› rfl (hbusy hp (by simp) (by simp)) hk.1 rfl
    · exact .read (hbusy hp (by simp) (by simp)) ⟨by simp, by simp⟩ rfl
  case post =>
    split at hstep
    next hlev =>
      cases hstep
      exact .wake hp (by omega) rfl rfl
    next hlev =>
      split at hstep <;> cases hstep
      · exact .hand hp (by omega) (by rw [if_pos ‹_›]) rfl
      · exact .hand hp (by omega) (by rw [if_neg ‹_›]) rfl
  all_goals
    cases hstep
    exact .read (hbusy hp (by simp) (by simp)) ⟨by simp, by simp⟩ rfl

end Pace

/-! ## The count of the levels -/

section Resize

variable {s s' : Sys}

theorem ResizeInv.of_counts (h : ResizeInv s) (hset : ∀ l, s.shared.Settled l → s'.shared.Settled l)
    (hres : ∀ l, (s'.thread l).resized = true → (s'.thread l).Busy →
      s'.shared.modifier = .expandWait ∧ s'.shared.Settled l)
    (hlevels : s'.shared.modifier = .expandWait → s'.shared.cpu.modifyLevels +
      (s'.uncounted .low).toNat + (s'.uncounted .lock).toNat = 2)
    (hposts : s'.shared.modifier = .expandWait → s'.shared.posts + (s'.posting .low).toNat +
      (s'.posting .lock).toNat = if s'.shared.cpu.modifyLevels = 2 then 1 else 0)
    (hno : s'.shared.modifier ≠ .expandWait → ∀ l, s'.posting l = false)
    (hrest : ∀ l, ¬ s'.shared.Settled l → ¬ (s'.thread l).Busy →
      ¬ (s.thread l).Busy ∧ (s.shared.cpu.posted l = true → s'.shared.cpu.posted l = true))
    (hhand : ¬ s'.shared.Settled .low → s.uncounted .lock = true ∨
        (s.thread .lock).pc = .post ∧ (s.thread .lock).lev = 0 →
      s'.shared.cpu.posted .low = true ∨ s'.uncounted .lock = true ∨
        (s'.thread .lock).pc = .post ∧ (s'.thread .lock).lev = 0) : ResizeInv s' where
  resized := fun l hr h1 h2 => hres l hr ⟨h1, h2⟩
  levels := hlevels
  posts := hposts
  noPosting := hno
  lockWake := by
    intro hns hidle
    obtain ⟨hidle', hposted⟩ := hrest .lock hns (by unfold Thread.Busy; tauto)
    refine hposted (h.lockWake (mt (hset .lock) hns) ?_)
    unfold Thread.Busy at hidle'
    tauto
  lowWake := by
    intro hns hidle
    obtain ⟨hidle', hposted⟩ := hrest .low hns (by unfold Thread.Busy; tauto)
    have hidle' : (s.thread .low).pc = .idle ∨ (s.thread .low).pc = .post := by
      unfold Thread.Busy at hidle'
      tauto
    rcases h.lowWake (mt (hset .low) hns) hidle' with hp | hh
    · exact .inl (hposted hp)
    · exact hhand hns hh

/-- The level has switched its buffers, and is still to be counted. -/
def Thread.resizing (t : Thread) : Bool := t.resized && t.pc != .idle && t.pc != .post

theorem uncounted_eq (s : Sys) (l : SoftLevel) :
    s.uncounted l = (!decide (s.shared.Settled l) || (s.thread l).resizing) := rfl

theorem Thread.Busy.resizing (h : t.Busy) : t.resizing = t.resized := by
  unfold Thread.resizing
  rw [bne_iff_ne.2 h.1, bne_iff_ne.2 h.2, Bool.and_true, Bool.and_true]

theorem Thread.resizing_idle (h : ¬ t.Busy) : t.resizing = false := by
  unfold Thread.Busy at h
  by_cases h1 : t.pc = .idle
  · simp [Thread.resizing, h1]
  · have h2 : t.pc = .post := by tauto
    simp [Thread.resizing, h2]

theorem Thread.not_busy_idle (h : t.pc = .idle) : ¬ t.Busy := fun hb => hb.1 h

theorem Thread.not_busy_post (h : t.pc = .post) : ¬ t.Busy := fun hb => hb.2 h

def Sys.withThread (s : Sys) (sh : Shared) (l : SoftLevel) (t : Thread) : Sys :=
  { shared := sh, thread := update s.thread l t }

theorem Sys.withThread_self (s : Sys) (sh : Shared) (l : SoftLevel) (t : Thread) :
    (s.withThread sh l t).thread l = t :=
  update_self ..

variable {l' : SoftLevel}

theorem Sys.withThread_of_ne (s : Sys) (sh : Shared) {l : SoftLevel} (t : Thread) (h : l' ≠ l) :
    (s.withThread sh l t).thread l' = s.thread l' :=
  update_of_ne h ..

variable {sh : Shared}

theorem Sys.withThread_posting {t : Thread} (h : l' ≠ l) :
    (s.withThread sh l t).posting l' = s.posting l' := by
  unfold Sys.posting
  rw [s.withThread_of_ne _ _ h]

theorem Sys.withThread_uncounted {t : Thread} (h : l' ≠ l)
    (hs : sh.Settled l' ↔ s.shared.Settled l') :
    (s.withThread sh l t).uncounted l' = s.uncounted l' := by
  rw [uncounted_eq, uncounted_eq, s.withThread_of_ne _ _ h]
  exact congrArg (fun b => !b || _) (decide_eq_decide.2 hs)

theorem ResizeInv.withThread {t : Thread} (h : ResizeInv s) (hm : sh.modifier = s.shared.modifier)
    (hlev : sh.cpu.modifyLevels = s.shared.cpu.modifyLevels) (hposts : sh.posts = s.shared.posts)
    (hset : s.shared.Settled l → sh.Settled l)
    (hothers : ∀ l' ≠ l, (sh.Settled l' ↔ s.shared.Settled l') ∧
      (s.shared.cpu.posted l' = true → sh.cpu.posted l' = true))
    (hres : t.resized = true → t.Busy → sh.modifier = .expandWait ∧ sh.Settled l)
    (hunc : (!decide (sh.Settled l) || t.resizing) = s.uncounted l)
    (hposting : (t.pc = .post && t.lev = 1 : Bool) = s.posting l)
    (hrest : ¬ sh.Settled l → ¬ t.Busy → ¬ (s.thread l).Busy ∧
      (s.shared.cpu.posted l = true → sh.cpu.posted l = true))
    (hhand : l = .lock → (s.thread l).pc = .post ∧ (s.thread l).lev = 0 →
      t.pc = .post ∧ t.lev = 0 ∨ sh.cpu.posted .low = true) :
    ResizeInv (s.withThread sh l t) := by
  have hunc' : ∀ l', (s.withThread sh l t).uncounted l' = s.uncounted l' := by
    intro l'
    by_cases hl : l' = l
    · subst hl
      rwa [uncounted_eq, s.withThread_self]
    · exact withThread_uncounted hl (hothers l' hl).1
  have hposting' : ∀ l', (s.withThread sh l t).posting l' = s.posting l' := by
    intro l'
    by_cases hl : l' = l
    · subst hl
      unfold Sys.posting
      rwa [s.withThread_self]
    · exact withThread_posting hl
  refine h.of_counts (fun l' => ?_) (fun l' => ?_) ?_ ?_ ?_ (fun l' => ?_) fun _ hh => ?_
  · by_cases hl : l' = l
    · subst hl
      exact hset
    · exact (hothers l' hl).1.2
  · by_cases hl : l' = l
    · subst hl
      rwa [s.withThread_self]
    · rw [s.withThread_of_ne _ _ hl]
      intro hr hb
      obtain ⟨hw, hs⟩ := h.resized l' hr hb.1 hb.2
      exact ⟨hm.trans hw, (hothers l' hl).1.2 hs⟩
  · rw [hunc', hunc']
    show sh.modifier = _ → sh.cpu.modifyLevels + _ + _ = 2
    rw [hm, hlev]
    exact h.levels
  · rw [hposting', hposting']
    show sh.modifier = _ → sh.posts + _ + _ = if sh.cpu.modifyLevels = 2 then 1 else 0
    rw [hm, hlev, hposts]
    exact h.posts
  · intro hne l'
    rw [hposting']
    exact h.noPosting (hm ▸ hne) l'
  · by_cases hl : l' = l
    · subst hl
      rwa [s.withThread_self]
    · rw [s.withThread_of_ne _ _ hl]
      exact fun _ hb => ⟨hb, (hothers l' hl).2⟩
  · rw [hunc']
    rcases hh with hu | hh
    · exact .inr (.inl hu)
    by_cases hl : SoftLevel.lock = l
    · subst hl
      exact (hhand rfl hh).elim (fun hh => .inr (.inr hh)) .inl
    · rw [s.withThread_of_ne _ _ hl]
      exact .inr (.inr hh)

theorem Thread.Busy.posting {t : Thread} (h : t.Busy) : (t.pc = .post && t.lev = 1 : Bool) = false := by
  rw [decide_eq_false h.2]
  rfl

theorem Thread.idle_posting {t : Thread} (h : t.pc = .idle) :
    (t.pc = .post && t.lev = 1 : Bool) = false := by
  rw [h]
  rfl

theorem ResizeInv.walk {t : Thread} (h : ResizeInv s) (f : SameResize s.shared sh)
    (hb : (s.thread l).Busy) (hb' : t.Busy) (hr : t.resized = (s.thread l).resized) :
    ResizeInv (s.withThread sh l t) := by
  refine h.withThread f.modifier f.levels f.posts (f.settled l).2
    (fun l' _ => ⟨f.settled l', f.posted l'⟩) (fun hres _ => ?_) ?_ ?_ (fun _ hn => absurd hb' hn)
    fun _ hp => absurd hp.1 hb.2
  · obtain ⟨hw, hs⟩ := h.resized l (hr ▸ hres) hb.1 hb.2
    exact ⟨f.modifier.trans hw, (f.settled l).2 hs⟩
  · rw [uncounted_eq, hb.resizing, hb'.resizing, hr, decide_eq_decide.2 (f.settled l)]
  · rw [hb'.posting]
    exact hb.posting.symm

theorem ResizeInv.leave {t : Thread} (h : ResizeInv s) (hb : (s.thread l).Busy) (hp : t.pc = .idle)
    (hr : (s.thread l).resized = false) (hset : s.shared.Settled l) :
    ResizeInv (s.withThread s.shared l t) := by
  have hb' := Thread.not_busy_idle hp
  refine h.withThread rfl rfl rfl id (fun _ _ => ⟨Iff.rfl, id⟩) (fun _ hb => absurd hb hb') ?_ ?_
    (fun hns => absurd hset hns) fun _ hpost => absurd hpost.1 hb.2
  · rw [uncounted_eq, hb.resizing, Thread.resizing_idle hb', hr]
  · rw [Thread.idle_posting hp]
    exact hb.posting.symm

theorem ResizeInv.switch {t : Thread} (h : ResizeInv s) (hs : SharedInv s.shared)
    (hb : (s.thread l).Busy) (hns : ¬ s.shared.Settled l) (hp : t.pc = .top)
    (hr : t.resized = true) :
    ResizeInv (s.withThread (s.shared.setSoftbuf l { s.shared.cpu.softbuf l with
      soft := (s.shared.cpu.softbuf l).hard }) l t) := by
  have hb' : t.Busy := ⟨by rw [hp]; simp, by rw [hp]; simp⟩
  have hset : (s.shared.setSoftbuf l { s.shared.cpu.softbuf l with
      soft := (s.shared.cpu.softbuf l).hard }).Settled l := (settled_setSoftbuf ..).2 rfl
  have hm : s.shared.modifier = .expandWait := by
    by_contra hne
    exact hns (hs.settled hne l)
  refine h.withThread rfl rfl rfl (fun hs => absurd hs hns) (fun l' hl => ⟨?_, id⟩)
    (fun _ _ => ⟨hm, hset⟩) ?_ ?_ (fun _ hn => absurd hb' hn) fun _ hpost => absurd hpost.1 hb.2
  · unfold Shared.Settled
    rw [setSoftbuf_of_ne hl]
  · rw [uncounted_eq, decide_eq_false hns, hb'.resizing, hr, Bool.or_true]
    rfl
  · rw [hb'.posting]
    exact hb.posting.symm

theorem ResizeInv.hand {t : Thread} (h : ResizeInv s) (hp : (s.thread l).pc = .post)
    (hlev : (s.thread l).lev ≠ 1) (ht : t.pc = .idle) :
    ResizeInv (s.withThread (if l = .lock then { s.shared with cpu := s.shared.cpu.softint .low }
      else s.shared) l t) := by
  have hb := Thread.not_busy_post hp
  have hb' := Thread.not_busy_idle ht
  have hposting : (t.pc = .post && t.lev = 1 : Bool) = s.posting l := by
    unfold Sys.posting
    rw [Thread.idle_posting ht, decide_eq_false hlev, Bool.and_false]
  have hunc : ∀ {b : Bool}, (b || t.resizing) = (b || (s.thread l).resizing) := by
    intro b
    rw [Thread.resizing_idle hb, Thread.resizing_idle hb']
  split
  next hl =>
    have hposted : ∀ l', s.shared.cpu.posted l' = true → (s.shared.cpu.softint .low).posted l' = true := by
      intro l' hpl
      cases l' with
      | low => rfl
      | lock => exact hpl
    exact h.withThread rfl rfl rfl id (fun l' _ => ⟨Iff.rfl, hposted l'⟩)
      (fun _ hb => absurd hb hb') hunc hposting (fun _ _ => ⟨hb, hposted l⟩) fun _ _ => .inr rfl
  next hl =>
    exact h.withThread rfl rfl rfl id (fun _ _ => ⟨Iff.rfl, id⟩) (fun _ hb => absurd hb hb')
      hunc hposting (fun _ _ => ⟨hb, id⟩) fun he => absurd he hl

theorem sum_levels (f : SoftLevel → Bool) (n : ℕ) (h : l' ≠ l) :
    n + (f .low).toNat + (f .lock).toNat = n + (f l).toNat + (f l').toNat := by
  cases l <;> cases l'
  · exact absurd rfl h
  · rfl
  · exact Nat.add_right_comm ..
  · exact absurd rfl h

theorem exists_other (l : SoftLevel) : ∃ l' : SoftLevel, l' ≠ l := by
  cases l with
  | low => exact ⟨.lock, by simp⟩
  | lock => exact ⟨.low, by simp⟩

theorem ResizeInv.wake {t : Thread} (h : ResizeInv s) (hp : (s.thread l).pc = .post)
    (hlev : (s.thread l).lev = 1) (ht : t.pc = .idle) :
    ResizeInv (s.withThread { s.shared.semaV with posts := s.shared.posts + 1 } l t) := by
  obtain ⟨l', hl⟩ := exists_other l
  have hb := Thread.not_busy_post hp
  have hb' := Thread.not_busy_idle ht
  have hposting : s.posting l = true := by
    unfold Sys.posting
    rw [hp, hlev]
    rfl
  have hposting' : ∀ sh, (s.withThread sh l t).posting l = false := by
    intro sh
    unfold Sys.posting
    rw [s.withThread_self]
    exact Thread.idle_posting ht
  have hwait : s.shared.modifier = .expandWait := by
    by_contra hne
    rw [h.noPosting hne] at hposting
    cases hposting
  have hunc : ∀ l', (s.withThread { s.shared.semaV with posts := s.shared.posts + 1 } l t).uncounted l' =
      s.uncounted l' := by
    intro l'
    by_cases hl : l' = l
    · subst hl
      rw [uncounted_eq, uncounted_eq, s.withThread_self, Thread.resizing_idle hb, Thread.resizing_idle hb']
      rfl
    · exact withThread_uncounted hl Iff.rfl
  have hposts := h.posts hwait
  refine h.of_counts (fun _ => id) (fun l' => ?_) ?_ (fun _ => ?_) (fun hne => absurd hwait hne)
    (fun l' => ?_) fun _ hh => ?_
  · by_cases hl : l' = l
    · subst hl
      rw [s.withThread_self]
      exact fun _ hb => absurd hb hb'
    · rw [s.withThread_of_ne _ _ hl]
      exact fun hr hb => h.resized l' hr hb.1 hb.2
  · rw [hunc, hunc]
    exact h.levels
  · show s.shared.posts + 1 + _ + _ = if s.shared.cpu.modifyLevels = 2 then 1 else 0
    rw [← hposts, sum_levels (Sys.posting _) _ hl, sum_levels s.posting _ hl, hposting, hposting',
      withThread_posting hl]
    rfl
  · by_cases hl : l' = l
    · subst hl
      exact fun _ _ => ⟨hb, id⟩
    · rw [s.withThread_of_ne _ _ hl]
      exact fun _ hb => ⟨hb, id⟩
  rw [hunc]
  rcases hh with hu | hh
  · exact .inr (.inl hu)
  by_cases hl : SoftLevel.lock = l
  · subst hl
    omega
  · rw [s.withThread_of_ne _ _ hl]
    exact .inr (.inr hh)

theorem ResizeInv.count {t : Thread} (h : ResizeInv s) (hb : (s.thread l).Busy)
    (hr : (s.thread l).resized = true) (hlev : s.shared.cpu.modifyLevels = (s.thread l).lev)
    (hm : sh.modifier = s.shared.modifier) (hsett : ∀ l, sh.Settled l ↔ s.shared.Settled l)
    (hposts : sh.posts = s.shared.posts) (hposted : sh.cpu.posted = s.shared.cpu.posted)
    (hlev' : sh.cpu.modifyLevels = (s.thread l).lev + 1) (htp : t.pc = .post)
    (htl : t.lev = (s.thread l).lev) : ResizeInv (s.withThread sh l t) := by
  obtain ⟨l', hl⟩ := exists_other l
  obtain ⟨hwait, hset⟩ := h.resized l hr hb.1 hb.2
  have hb' := Thread.not_busy_post htp
  have hunc : s.uncounted l = true := by rw [uncounted_eq, hb.resizing, hr, Bool.or_true]
  have hposting : s.posting l = false := hb.posting
  have hlevels := h.levels hwait
  have hposts' := h.posts hwait
  rw [sum_levels s.uncounted _ hl, hunc, toNat_true, hlev] at hlevels
  rw [sum_levels s.posting _ hl, hposting, toNat_false, hlev, if_neg (by omega)] at hposts'
  have hunc' : (s.withThread sh l t).uncounted l = false := by
    rw [uncounted_eq, s.withThread_self, Thread.resizing_idle hb', Bool.or_false, not_eq_false']
    exact decide_eq_true ((hsett l).2 hset)
  have hposting' : (s.withThread sh l t).posting l = decide ((s.thread l).lev = 1) := by
    unfold Sys.posting
    rw [s.withThread_self, htp, htl]
    rfl
  refine h.of_counts (fun l => (hsett l).2) (fun l' => ?_) (fun _ => ?_) (fun _ => ?_)
    (fun hne => absurd (hm.trans hwait) hne) (fun l' => ?_) fun hns hh => ?_
  · by_cases hl : l' = l
    · subst hl
      rw [s.withThread_self]
      exact fun _ hb => absurd hb hb'
    · rw [s.withThread_of_ne _ _ hl]
      intro hr hb
      obtain ⟨hw, hs⟩ := h.resized l' hr hb.1 hb.2
      exact ⟨hm.trans hw, (hsett l').2 hs⟩
  · rw [sum_levels (Sys.uncounted _) _ hl, hunc', withThread_uncounted hl (hsett l')]
    show sh.cpu.modifyLevels + 0 + _ = 2
    omega
  · rw [sum_levels (Sys.posting _) _ hl, hposting', withThread_posting hl]
    show sh.posts + _ + _ = if sh.cpu.modifyLevels = 2 then 1 else 0
    rw [hposts, hlev']
    by_cases hone : (s.thread l).lev = 1
    · rw [decide_eq_true hone, if_pos (by omega), toNat_true]
      omega
    · rw [decide_eq_false hone, if_neg (by omega), toNat_false]
      exact hposts'
  · by_cases hl : l' = l
    · subst hl
      exact fun hns => absurd ((hsett l').2 hset) hns
    · rw [s.withThread_of_ne _ _ hl]
      exact fun _ hb => ⟨hb, fun hp => (congrFun hposted l').trans hp⟩
  · by_cases hlk : SoftLevel.lock = l
    · subst hlk
      -- the low level has not switched: this one is the first
      have hlow : s.uncounted .low = true := by
        rw [uncounted_eq, decide_eq_false (mt (hsett .low).2 hns)]
        rfl
      obtain rfl : l' = .low := by
        cases l'
        · rfl
        · exact absurd rfl hl
      rw [hlow, toNat_true] at hlevels
      rw [s.withThread_self]
      exact .inr (.inr ⟨htp, by omega⟩)
    · rw [s.withThread_of_ne _ _ hlk, withThread_uncounted hlk (hsett .lock)]
      exact .inr hh

theorem ResizeInv.soft {t : Thread} (h : ResizeInv s) (hs : SharedInv s.shared)
    (hp : Pace s.shared l (s.thread l) sh t) : ResizeInv (s.withThread sh l t) := by
  cases hp with
  | walk same busy busy' resized => exact h.walk same busy busy' resized
  | leave same busy idle resized settled =>
    subst same
    exact h.leave busy idle resized settled
  | switch same busy unsettled top resized =>
    subst same
    exact h.switch hs busy unsettled top resized
  | count levels same busy resized post =>
    subst same post
    exact h.count busy resized levels rfl (fun _ => Iff.rfl) rfl rfl rfl rfl rfl
  | wake post lev same idle =>
    subst same
    exact h.wake post lev idle
  | hand post lev same idle =>
    subst same
    exact h.hand post lev idle

end Resize

end Osol.Cyc
