import Osol.Cyclic.Run
import Osol.Cyclic.SoftModify

/-!
# Runs of the soft interrupts

The invariant holds in every state of a run in which `cyclic_expand_xcall` does not come between
the last test of the loop of `cyclic_softint` and its look at `cys_hard`, with an entry enqueued in
between. So no expiration is lost in such a run.
-/

namespace Osol.Cyc

open Osol.Lib Function Option List

variable {s s' : Sys} {sh : Shared} {l : SoftLevel} {e : Event}

/-! ## The steps of the system -/

theorem SysInv.withShared (h : SysInv s) (hs : SharedInv sh)
    (hr : ResizeInv { s with shared := sh })
    (hl : ∀ {l q q'}, LevelInv s.shared l (s.thread l) q q' →
      ∃ q q', LevelInv sh l (s.thread l) q q') : SysInv { s with shared := sh } where
  shared := hs
  resize := hr
  level := fun l => by
    obtain ⟨q, q', hlev⟩ := h.level l
    exact hl hlev

theorem ResizeInv.same (h : ResizeInv s) (f : SameResize s.shared sh) :
    ResizeInv { s with shared := sh } := by
  have hunc : ∀ l, Sys.uncounted { s with shared := sh } l = s.uncounted l := fun l =>
    congrArg (fun b => !b || _) (decide_eq_decide.2 (f.settled l))
  refine h.of_counts (fun l => (f.settled l).2) (fun l hr hb => ?_) ?_ ?_ ?_
    (fun l _ hb => ⟨hb, f.posted l⟩) fun _ hh => ?_
  · obtain ⟨hw, hset⟩ := h.resized l hr hb.1 hb.2
    exact ⟨f.modifier.trans hw, (f.settled l).2 hset⟩
  · rw [hunc, hunc]
    rw [f.modifier, f.levels]
    exact h.levels
  · rw [f.modifier, f.levels, f.posts]
    exact h.posts
  · intro hne
    exact h.noPosting (f.modifier ▸ hne)
  · rw [hunc]
    exact .inr hh

theorem ResizeInv.quiet (h : ResizeInv s) (hm : s.shared.modifier ≠ .expandWait)
    (hm' : sh.modifier ≠ .expandWait) (hset : ∀ l, sh.Settled l) :
    ResizeInv { s with shared := sh } where
  resized := fun l hr h1 h2 => absurd (h.resized l hr h1 h2).1 hm
  levels := fun he => absurd he hm'
  posts := fun he => absurd he hm'
  noPosting := fun _ => h.noPosting hm
  lockWake := fun hns => absurd (hset .lock) hns
  lowWake := fun hns => absurd (hset .low) hns

theorem SysInv.start (h : SysInv s) (hidle : (s.thread l).pc = .idle) :
    SysInv (s.withThread { s.shared with cpu := { s.shared.cpu with
      posted := update s.shared.cpu.posted l false } } l .called) := by
  have hposted : ∀ {l'}, l' ≠ l → update s.shared.cpu.posted l false l' = s.shared.cpu.posted l' :=
    fun hl => update_of_ne hl ..
  have hb : Thread.Busy .called := ⟨by simp [Thread.called], by simp [Thread.called]⟩
  have hb' := Thread.not_busy_idle hidle
  refine ⟨?_, ?_, fun l' => ?_⟩
  · exact { h.shared with slots := h.shared.slots.congr rfl rfl rfl rfl }
  · refine h.resize.withThread rfl rfl rfl id (fun l' hl => ⟨Iff.rfl, fun hp => ?_⟩)
      nofun ?_ ?_ (fun _ hn => absurd hb hn) fun _ hp => ?_
    · exact (hposted hl).trans hp
    · rw [uncounted_eq, hb.resizing, Thread.resizing_idle hb']
      rfl
    · exact (Thread.idle_posting hidle).symm
    · rw [hidle] at hp
      cases hp.1
  · obtain ⟨q, q', hlev⟩ := h.level l'
    by_cases hl : l' = l
    · subst hl
      rw [s.withThread_self]
      have hmove : LevelInv s.shared l' .called q q' := hlev.move_calm (by rw [hidle]; rfl) rfl (by rfl)
      exact ⟨q, q', { hmove.queue with }, rfl, hmove.account⟩
    · rw [s.withThread_of_ne _ _ hl]
      exact ⟨q, q', hlev.frame_all (.of_softbuf rfl rfl rfl rfl fun hp => (hposted hl).trans hp)
        fun c => sameCounts_of_eq rfl Iff.rfl (fun _ => rfl) rfl rfl rfl⟩

theorem SysInv.soft_some (h : SysInv s) (l : SoftLevel) (hidle : (s.thread l).pc ≠ .idle) :
    ∃ r, softStep s.shared l (s.thread l) = some r ∧ Stepped s.shared r.1 l r.2 := by
  obtain ⟨q, q', hlev⟩ := h.level l
  refine hlev.step h.shared hidle (fun hr hp => (h.resize.resized l hr hidle hp).1) fun hp h1 => ?_
  by_contra hne
  have hno := h.resize.noPosting hne l
  unfold Sys.posting at hno
  rw [hp, h1] at hno
  cases hno

theorem SysInv.soft {r : Shared × Thread} (h : SysInv s)
    (hstep : softStep s.shared l (s.thread l) = some r) : SysInv (s.withThread r.1 l r.2) := by
  have hidle : (s.thread l).pc ≠ .idle := by
    intro hp
    unfold softStep at hstep
    rw [hp] at hstep
    cases hstep
  obtain ⟨r', hr, hst⟩ := h.soft_some l hidle
  obtain rfl := Option.some.inj (hr.symm.trans hstep)
  obtain ⟨q, q', hlev⟩ := h.level l
  refine ⟨hst.shared, h.resize.soft h.shared (hlev.pace hstep), fun l' => ?_⟩
  by_cases hl : l' = l
  · subst hl
    rw [s.withThread_self]
    exact hst.own
  rw [s.withThread_of_ne _ _ hl]
  obtain ⟨p, p', hlev'⟩ := h.level l'
  have hothers : ∀ c, (s.shared.cpu.cyclics c).level = .soft l' → SameCounts s.shared r'.1 c := by
    intro c hc
    refine hst.others c ?_
    rw [hc]
    intro he
    injection he with he
    exact hl he
  refine ⟨p, p', hlev'.frame (hst.buffers l' hl)
    (fun c hc => hothers c (hlev'.queue.mem c hc).2.1) fun c hc => .inl (hothers c ?_)⟩
  rwa [← hst.levels]

variable {ndx : ℕ}

theorem SysInv.expire (h : SysInv s) (hstep : expireStep s.shared ndx = some sh) :
    SysInv { s with shared := sh } := by
  obtain ⟨l, hlev, hlt, hf, hcase⟩ := expireStep_some hstep
  have hsame : ∀ sb pend, (∀ l', (sb l').hard = (s.shared.cpu.softbuf l').hard ∧
      (sb l').soft = (s.shared.cpu.softbuf l').soft) →
      SameResize s.shared (s.shared.expire l sb ndx pend) := fun sb pend hsb =>
    ⟨rfl, rfl, rfl, fun l' => by
      show (sb l').hard = (sb l').soft ↔ _
      rw [(hsb l').1, (hsb l').2]
      exact Iff.rfl, fun l' hp => posted_expire _ _ _ _ _ _ hp⟩
  -- the other level looks at other cyclics
  have hother : ∀ {sb pend l' q q'}, l' ≠ l → sb l' = s.shared.cpu.softbuf l' →
      LevelInv s.shared l' (s.thread l') q q' →
      LevelInv (s.shared.expire l sb ndx pend) l' (s.thread l') q q' := by
    intro sb pend l' q q' hl hsb hlev'
    have hne : ∀ c, (s.shared.cpu.cyclics c).level = .soft l' → c ≠ ndx := by
      rintro c hc rfl
      rw [hlev] at hc
      injection hc with hc
      exact hl hc.symm
    refine hlev'.frame (.of_softbuf hsb rfl rfl rfl fun hp => posted_expire _ _ _ _ _ _ hp)
      (fun c hc => sameCounts_expire _ _ _ _ (hne c (hlev'.queue.mem c hc).2.1)) fun c hc => ?_
    refine .inl (sameCounts_expire _ _ _ _ (hne c ?_))
    rw [← hc]
    exact (update_congr Cyclic.level (by rfl) c).symm
  rcases hcase with ⟨hz, rfl⟩ | ⟨hz, rfl⟩
  · have hsb : ∀ l', (update s.shared.cpu.softbuf l
        ((s.shared.cpu.softbuf l).produce ndx) l').hard = (s.shared.cpu.softbuf l').hard ∧
        (update s.shared.cpu.softbuf l ((s.shared.cpu.softbuf l).produce ndx) l').soft =
          (s.shared.cpu.softbuf l').soft ∧
        (update s.shared.cpu.softbuf l ((s.shared.cpu.softbuf l).produce ndx) l').buf
          (!(s.shared.cpu.softbuf l').hard) =
          (s.shared.cpu.softbuf l').buf (!(s.shared.cpu.softbuf l').hard) := by
      intro l'
      by_cases hl : l' = l
      · subst hl
        rw [update_self]
        exact ⟨rfl, rfl, SoftBuf.produce_of_ne _ _ (by simp)⟩
      · rw [update_of_ne hl]
        exact ⟨rfl, rfl, rfl⟩
    refine h.withShared (h.shared.expire hlt hf (by decide) hsb)
      (h.resize.same (hsame _ _ fun l' => ⟨(hsb l').1, (hsb l').2.1⟩)) fun {l' q q'} hlev' => ?_
    by_cases hl : l' = l
    · subst hl
      exact hlev'.expire_first h.shared hlt hlev hf hz
    · exact ⟨q, q', hother hl (update_of_ne hl ..) hlev'⟩
  · refine h.withShared (h.shared.expire hlt hf (morePend_lt _) fun _ => ⟨rfl, rfl, rfl⟩)
      (h.resize.same (hsame _ _ fun _ => ⟨rfl, rfl⟩)) fun {l' q q'} hlev' => ?_
    by_cases hl : l' = l
    · subst hl
      exact ⟨q, q', hlev'.expire_more h.shared hf hz⟩
    · exact ⟨q, q', hother hl rfl hlev'⟩

theorem SysInv.add {d : Cyclic} (h : SysInv s) (hm : s.shared.modifier = .idle)
    (hlt : s.shared.cpu.nelems < s.shared.cpu.size) (hf : d.free = false) (hint : 0 < d.interval)
    (hp : d.pend = 0) : SysInv { s with shared := s.shared.add d } := by
  have hs := h.shared.add hm hlt hf hint hp
  have hne : s.shared.modifier ≠ .expandWait := by rw [hm]; simp
  exact h.withShared hs (h.resize.quiet hne hne (hs.settled hne)) fun {l q q'} hlev =>
    ⟨q, q', hlev.add h.shared hm hlt hp⟩

theorem SysInv.goOn {m : Modifier} {rpend : ℕ} (h : SysInv s) (hf : s.shared.modifier.Free)
    (hm : m.Free) (hr : m ≠ .expandReady) (hz : rpend = 0) :
    SysInv { s with shared := s.shared.goOn m rpend } := by
  have hs := h.shared.goOn hf hm hr hz
  exact h.withShared hs (h.resize.quiet hf.1 hm.1 (hs.settled hm.1)) fun {l q q'} hlev =>
    ⟨q, q', hlev.goOn hf hm⟩

theorem SysInv.setup (h : SysInv s) (hm : s.shared.modifier = .expanding) :
    SysInv { s with shared := s.shared.setup } := by
  have hs := h.shared.setup hm
  have hne : s.shared.setup.modifier ≠ .expandWait := nofun
  exact h.withShared hs (h.resize.quiet (by simp [hm]) hne (hs.settled hne))
    fun {l q q'} hlev => ⟨q, q', hlev.setup h.shared hm⟩

theorem ResizeInv.expand (h : ResizeInv s) (hs : SharedInv s.shared)
    (hm : s.shared.modifier = .expandReady) : ResizeInv { s with shared := s.shared.expand } := by
  have hne : s.shared.modifier ≠ .expandWait := by rw [hm]; simp
  obtain ⟨hlevels, hposts, -⟩ := hs.ready hm
  have hunc : ∀ l, Sys.uncounted { s with shared := s.shared.expand } l = true := by
    intro l
    rw [uncounted_eq, decide_eq_false (expand_unsettled (hs.ready_settled hm l))]
    rfl
  have hposting : ∀ l, Sys.posting { s with shared := s.shared.expand } l = false := h.noPosting hne
  have hlev : s.shared.expand.cpu.modifyLevels = 0 := hlevels
  refine
    { resized := fun l hr h1 h2 => absurd (h.resized l hr h1 h2).1 hne
      levels := fun _ => ?_
      posts := fun _ => ?_
      noPosting := fun he => absurd rfl he
      lockWake := fun _ _ => rfl
      lowWake := fun _ _ => .inr (.inl (hunc .lock)) }
  · rw [hunc, hunc]
    show s.shared.expand.cpu.modifyLevels + 1 + 1 = 2
    rw [hlev]
  · rw [hposting, hposting]
    show s.shared.posts + 0 + 0 = if s.shared.expand.cpu.modifyLevels = 2 then 1 else 0
    rw [hposts, hlev]
    rfl

theorem SysInv.expand (h : SysInv s) (hm : s.shared.modifier = .expandReady)
    (hquiet : ∀ l, (s.thread l).pc = .checkHard →
      (s.shared.softPc l).consndx = (s.shared.softPc l).prodndx) :
    SysInv { s with shared := s.shared.expand } :=
  h.withShared (h.shared.expand hm) (h.resize.expand h.shared hm) fun {l q _} hlev =>
    ⟨q, [], hlev.expand h.shared hm (hquiet l)⟩

theorem ResizeInv.posted (h : ResizeInv s) (hm : s.shared.modifier = .expandWait)
    (hpost : s.shared.posts ≠ 0 ∨ ∃ l, s.posting l = true) :
    s.shared.posts + (s.posting .low).toNat + (s.posting .lock).toNat = 1 ∧ ∀ l, s.uncounted l = false := by
  have hposts := h.posts hm
  have hlevels := h.levels hm
  have hpos : 0 < s.shared.posts + (s.posting .low).toNat + (s.posting .lock).toNat := by
    rcases hpost with hp | ⟨l, hl⟩
    · omega
    · cases l <;> rw [hl, Bool.toNat_true] <;> omega
  by_cases htwo : s.shared.cpu.modifyLevels = 2
  · rw [if_pos htwo] at hposts
    refine ⟨hposts, fun l => ?_⟩
    cases l <;> apply Bool.eq_false_of_not_eq_true <;> intro hu <;>
      rw [hu, Bool.toNat_true] at hlevels <;> omega
  · rw [if_neg htwo] at hposts
    omega

theorem settled_of_counted (h : s.uncounted l = false) : s.shared.Settled l := by
  rw [uncounted_eq, Bool.or_eq_false_iff, Bool.not_eq_false'] at h
  exact of_decide_eq_true h.1

theorem SysInv.expandEnd (h : SysInv s) (hm : s.shared.modifier = .expandWait)
    (hwait : s.shared.cpu.modifyWait ≠ 0) :
    SysInv { s with shared := s.shared.wake .idle .online none } := by
  have hne : s.shared.posts ≠ 0 := by rwa [← h.shared.semaExpand hm]
  obtain ⟨hone, hunc⟩ := h.resize.posted hm (.inl hne)
  have hset : ∀ l, s.shared.Settled l := fun l => settled_of_counted (hunc l)
  have hposting : ∀ l, s.posting l = false := by
    intro l
    apply Bool.eq_false_of_not_eq_true
    intro hp
    cases l <;> rw [hp, Bool.toNat_true] at hone <;> omega
  refine h.withShared (h.shared.expandEnd hm hset ?_) ?_ fun {l q q'} hlev =>
    ⟨q, q', hlev.expandEnd hm (hset l)⟩
  · rwa [hposting, hposting] at hone
  refine
    { resized := fun l hr h1 h2 => ?_
      levels := nofun
      posts := nofun
      noPosting := fun _ => hposting
      lockWake := fun hns => absurd (hset .lock) hns
      lowWake := fun hns => absurd (hset .low) hns }
  have hl := hunc l
  rw [uncounted_eq, Thread.Busy.resizing ⟨h1, h2⟩, show (s.thread l).resized = true from hr,
    Bool.or_true] at hl
  cases hl

theorem SysInv.removeWake (h : SysInv s) (hm : s.shared.modifier = .removeWait ndx)
    (hwait : s.shared.cpu.modifyWait ≠ 0) :
    SysInv { s with shared := s.shared.wake .removeEnd s.shared.cpu.state s.shared.old } := by
  have hs := h.shared.removeWake hm
  exact h.withShared hs (h.resize.quiet (by simp [hm]) nofun (hs.settled nofun))
    fun {l q q'} hlev => ⟨q, q', hlev.removeWake hwait⟩

theorem SysInv.remove {i : ℕ} {wait : Bool} (h : SysInv s)
    (hm : s.shared.modifier = .removing ndx wait) (hi : i < s.shared.cpu.nelems) :
    SysInv { s with shared := s.shared.remove i } := by
  have hs := h.shared.remove hm hi
  have hne : (s.shared.remove i).modifier ≠ .expandWait := by
    rw [remove_modifier]
    split_ifs <;> simp
  exact h.withShared hs (h.resize.quiet (by simp [hm]) hne (hs.settled hne))
    fun {l q q'} hlev => ⟨q, q', hlev.remove h.shared hm i⟩

/-! ## Whole runs -/

/-- `cyclic_expand_xcall` does not come when a soft interrupt has left its loop, has not looked at
`cys_hard` yet, and an entry was enqueued for it in between. -/
def Quiet (s : Sys) : Event → Prop
  | .expandXcall => ∀ l, (s.thread l).pc = .checkHard →
    (s.shared.softPc l).consndx = (s.shared.softPc l).prodndx
  | _ => True

theorem free_of_idle {m : Modifier} (h : m = .idle) : m.Free := by
  subst h
  exact ⟨by simp, by simp⟩

theorem SysInv.modify (h : SysInv s) (hq : Quiet s e) (hstep : modifierStep s.shared e = some sh) :
    SysInv { s with shared := sh } := by
  unfold modifierStep at hstep
  cases e <;> dsimp only at hstep
  case add hdlr cytWhen cytInterval flags now =>
    obtain ⟨⟨hm, hlt, hint, hfl⟩, ⟨⟩⟩ := ite_none_right_eq_some.1 hstep
    refine h.add hm hlt (by unfold Cyclic.free; rw [hfl]; rfl) hint ?_
    exact h.shared.freePend _ (h.shared.next_free hlt).2
  case expandBegin =>
    obtain ⟨hm, ⟨⟩⟩ := ite_none_right_eq_some.1 hstep
    exact h.goOn (m := .expanding) (free_of_idle hm) ⟨by simp, by simp⟩ (by simp)
      (h.shared.rpend (by simp [hm]) (by simp [hm]))
  case expandSetup =>
    obtain ⟨hm, ⟨⟩⟩ := ite_none_right_eq_some.1 hstep
    exact h.setup hm
  case expandXcall =>
    obtain ⟨hm, ⟨⟩⟩ := ite_none_right_eq_some.1 hstep
    exact h.expand hm hq
  case expandEnd =>
    obtain ⟨hm, ⟨⟩⟩ := ite_none_right_eq_some.1 hstep
    exact h.expandEnd hm.1 hm.2
  case removeBegin ndx wait =>
    obtain ⟨hm, ⟨⟩⟩ := ite_none_right_eq_some.1 hstep
    exact h.goOn (m := .removing ndx wait) (free_of_idle hm) ⟨by simp, by simp⟩ (by simp)
      (h.shared.rpend (by simp [hm]) (by simp [hm]))
  case removeXcall =>
    split at hstep
    next ndx wait hm =>
      obtain ⟨⟨cpu, out⟩, hrem, hr⟩ := map_eq_some_iff.1 hstep
      cases hr
      rcases remove_some hrem with ⟨rfl, hw⟩ | ⟨i, hi, rfl, rfl, hw⟩
      · rw [if_pos hw]
        have hst : s.shared.cpu.state = .removing := h.shared.state.trans (by rw [hm]; rfl)
        have he : { s.shared with modifier := .removeRefused } =
          s.shared.goOn .removeRefused s.shared.cpu.rpend := by
          unfold Shared.goOn
          rw [show Modifier.state .removeRefused = s.shared.cpu.state from hst.symm]
        rw [he]
        exact h.goOn ⟨by rw [hm]; simp, by rw [hm]; simp⟩ ⟨by simp, by simp⟩ (by simp)
          (h.shared.rpend (by simp [hm]) (by simp [hm]))
      · rw [if_neg (not_not.2 hw)]
        exact h.remove hm hi
    next => cases hstep
  case removeWake =>
    split at hstep
    next ndx hm =>
      obtain ⟨hw, ⟨⟩⟩ := ite_none_right_eq_some.1 hstep
      exact h.removeWake hm hw
    next => cases hstep
  case removeEnd =>
    split at hstep
    next hm =>
      cases hstep
      exact h.goOn (m := .idle) ⟨by rw [hm]; simp, by rw [hm]; simp⟩ ⟨by simp, by simp⟩ (by simp)
        (h.shared.rpend (by simp [hm]) (by simp [hm]))
    next hm =>
      cases hstep
      exact h.goOn (m := .idle) ⟨by rw [hm]; simp, by rw [hm]; simp⟩ ⟨by simp, by simp⟩ (by simp) rfl
    next => cases hstep
  all_goals cases hstep

theorem SysInv.next (h : SysInv s) (hq : Quiet s e) (hstep : next s e = some s') : SysInv s' := by
  have hmod : (modifierStep s.shared e).map (fun sh => { s with shared := sh }) = some s' → SysInv s' := by
    intro hm
    obtain ⟨sh, hsh, rfl⟩ := map_eq_some_iff.1 hm
    exact h.modify hq hsh
  unfold Osol.Cyc.next at hstep
  cases e <;> dsimp only at hstep
  case start l =>
    obtain ⟨hidle, ⟨⟩⟩ := ite_none_right_eq_some.1 hstep
    exact h.start hidle
  case soft l =>
    obtain ⟨r, hr, rfl⟩ := map_eq_some_iff.1 hstep
    exact h.soft hr
  case expire ndx =>
    obtain ⟨sh, hsh, rfl⟩ := map_eq_some_iff.1 hstep
    exact h.expire hsh
  all_goals exact hmod hstep

/-- The states of the system. -/
inductive Sys.Reach : Sys → Prop where
  | initial : Sys.Reach .initial
  | step {s s' : Sys} {e : Event} (h : Sys.Reach s) (hq : Quiet s e) (hs : next s e = some s') :
    Sys.Reach s'

theorem SharedInv.initial : SharedInv Sys.initial.shared where
  slots := configured_sound.slots
  byExpire := configured_sound.byExpire
  pow := ⟨0, rfl⟩
  freePend := fun _ _ => rfl
  bound := fun _ => Nat.two_pow_pos 32
  small := fun _ _ => Nat.two_pow_pos 31
  state := rfl
  settled := fun _ _ => rfl
  old := nofun
  ready := nofun
  waiting := nofun
  rpend := fun _ _ => rfl
  sema := fun _ _ => rfl
  semaRemove := nofun
  semaExpand := nofun
  beyond := fun _ _ => ⟨rfl, rfl⟩

theorem SysInv.initial : SysInv .initial where
  shared := .initial
  resize :=
    { resized := nofun
      levels := nofun
      posts := nofun
      noPosting := fun _ _ => rfl
      lockWake := fun hns => absurd rfl hns
      lowWake := fun hns => absurd rfl hns }
  level := fun l => by
    have hpaid : ∀ c, ¬ Sys.initial.shared.Unpaid c := fun c hu => nomatch hu.1
    refine ⟨[], [], ⟨.nil .., fun hns => absurd rfl hns, fun _ => rfl, rfl, List.Pairwise.nil, nofun,
      fun c _ _ _ hp => ?_, fun hns => absurd rfl hns⟩, fun hne => absurd rfl hne, fun c _ _ => ?_⟩
    · rcases hp with hp | hu
      · exact absurd hp (Nat.lt_irrefl 0)
      · exact absurd hu (hpaid c)
    · rfl

theorem Sys.Reach.inv (h : s.Reach) : SysInv s := by
  induction h with
  | initial => exact .initial
  | step _ hq hs ih => exact ih.next hq hs

/-! ## What follows -/

/-- The first position of the buffer of the high level that is not consumed. The entry before it
is consumed from the last `cas32` on, though its index is not written yet. -/
def Sys.unconsumed (s : Sys) (l : SoftLevel) : ℕ :=
  (s.shared.hardPc l).consndx + if s.shared.Settled l then (s.thread l).pc.done else 0

theorem SysInv.handled_eq (h : SysInv s) (hidle : (s.thread l).pc = .idle)
    (hposted : s.shared.cpu.posted l = false) {c : ℕ} (hlt : c < s.shared.cpu.size)
    (hlev : (s.shared.cpu.cyclics c).level = .soft l) (hlarge : s.shared.large c = false) :
    s.shared.handled c = s.shared.expired c := by
  obtain ⟨q, q', hl⟩ := h.level l
  have hk : Woken s.shared l q q' := hl.known_at hidle
  have hempty : q ++ q' = [] := by
    by_contra hne
    have := hk hne
    rw [hposted] at this
    cases this
  have hacc := hl.account c hlev hlarge
  have hpending : ¬ s.shared.Pending c := by
    intro hp
    have := hl.queue.queued c hlt hlev hlarge hp
    rw [hempty] at this
    cases this
  rw [ahead_calm (by rw [hidle]; rfl), owed_eq (by simp [hidle]), Shared.due_eq_zero hpending] at hacc
  exact hacc.symm

theorem SysInv.slot_free {p : ℕ} (h : SysInv s) (hlt : ndx < s.shared.cpu.size)
    (hf : (s.shared.cpu.cyclics ndx).free = false) (hz : (s.shared.cpu.cyclics ndx).pend = 0)
    (hp : s.unconsumed l ≤ p) (hp' : p < (s.shared.hardPc l).prodndx) :
    p &&& (s.shared.hardPc l).sizemask ≠
      (s.shared.hardPc l).prodndx &&& (s.shared.hardPc l).sizemask := by
  obtain ⟨q, q', hl⟩ := h.level l
  obtain ⟨k, hk⟩ := h.shared.pow
  have hn : ndx ∉ q ++ q' := by
    intro hmem
    rcases (hl.queue.mem ndx hmem).2.2 with hpos | hu
    · omega
    · exact h.shared.not_unpaid hf hu
  have hroom := hl.queue.room hlt hn
  rw [length_append] at hroom
  unfold Sys.unconsumed at hp
  refine slot_ne (hl.queue.mask.trans hk) hp' ?_
  by_cases hset : s.shared.Settled l
  · have hlen := hl.queue.ring.length
    rw [← hset.hardPc] at hlen
    rw [if_pos hset] at hp
    omega
  · have hlen := (hl.queue.newRing hset).length
    omega

theorem SysInv.post_once {r : Shared × Thread} (h : SysInv s)
    (hstep : softStep s.shared l (s.thread l) = some r) (hne : r.1.posts ≠ s.shared.posts) :
    s.shared.modifier = .expandWait ∧ s.shared.posts = 0 ∧ r.1.posts = 1 ∧ ∀ l, s.shared.Settled l := by
  obtain ⟨q, q', hl⟩ := h.level l
  cases hl.pace hstep with
  | walk same _ _ _ => exact absurd same.posts hne
  | leave same _ _ _ _ => exact absurd (congrArg Shared.posts same) hne
  | switch same _ _ _ _ => exact absurd (congrArg Shared.posts same) hne
  | count _ same _ _ _ => exact absurd (congrArg Shared.posts same) hne
  | hand _ _ same _ =>
    refine absurd ?_ hne
    rw [same]
    split_ifs <;> rfl
  | wake post lev same idle =>
    have hposting : s.posting l = true := by
      unfold Sys.posting
      rw [post, lev]
      rfl
    have hm : s.shared.modifier = .expandWait := by
      by_contra hno
      rw [h.resize.noPosting hno] at hposting
      cases hposting
    obtain ⟨hone, hunc⟩ := h.resize.posted hm (.inr ⟨l, hposting⟩)
    have hz : s.shared.posts = 0 := by cases l <;> rw [hposting, Bool.toNat_true] at hone <;> omega
    refine ⟨hm, hz, ?_, fun l => settled_of_counted (hunc l)⟩
    rw [same]
    rw [hz]

theorem SysInv.posted_of_quiescent (h : SysInv s) (hm : s.shared.modifier = .expandWait)
    (hidle : ∀ l, (s.thread l).pc = .idle ∧ s.shared.cpu.posted l = false) :
    s.shared.posts = 1 := by
  have hresizing : ∀ l, (s.thread l).resizing = false := fun l =>
    Thread.resizing_idle (Thread.not_busy_idle (hidle l).1)
  have hlock : s.shared.Settled .lock := by
    by_contra hns
    have := h.resize.lockWake hns (.inl (hidle .lock).1)
    rw [(hidle .lock).2] at this
    cases this
  have hunc : s.uncounted .lock = false := by
    rw [uncounted_eq, hresizing, decide_eq_true hlock]
    rfl
  have hlow : s.shared.Settled .low := by
    by_contra hns
    rcases h.resize.lowWake hns (.inl (hidle .low).1) with hp | hu | hp
    · rw [(hidle .low).2] at hp
      cases hp
    · rw [hunc] at hu
      cases hu
    · rw [(hidle .lock).1] at hp
      cases hp.1
  have hunc' : s.uncounted .low = false := by
    rw [uncounted_eq, hresizing, decide_eq_true hlow]
    rfl
  have hposting : ∀ l, s.posting l = false := fun l => Thread.idle_posting (hidle l).1
  have hlevels := h.resize.levels hm
  have hposts := h.resize.posts hm
  rw [hunc, hunc', Bool.toNat_false] at hlevels
  rw [hposting, hposting, Bool.toNat_false, if_pos (c := s.shared.cpu.modifyLevels = 2) hlevels] at hposts
  exact hposts

/-- In a run without the race between the end of the loop of `cyclic_softint` and a resize, an
idle soft interrupt has handled every cyclic as often as it expired; no entry is overwritten
before it is consumed; each resize is posted once, after both levels have switched; and a soft
interrupt never uses an array that was freed. -/
theorem cyclic_softint_exact (h : s.Reach) :
    (∀ l, (s.thread l).pc = .idle → s.shared.cpu.posted l = false → ∀ c < s.shared.cpu.size,
      (s.shared.cpu.cyclics c).level = .soft l → s.shared.large c = false →
      s.shared.handled c = s.shared.expired c) ∧
    (∀ l ndx s', next s (.expire ndx) = some s' → (s.shared.cpu.cyclics ndx).pend = 0 →
      (s.shared.cpu.cyclics ndx).level = .soft l → ∀ p, s.unconsumed l ≤ p →
      p < (s.shared.hardPc l).prodndx → p &&& (s.shared.hardPc l).sizemask ≠
        (s.shared.hardPc l).prodndx &&& (s.shared.hardPc l).sizemask) ∧
    (∀ l s', next s (.soft l) = some s' → s'.shared.posts ≠ s.shared.posts →
      s.shared.modifier = .expandWait ∧ s.shared.posts = 0 ∧ s'.shared.posts = 1 ∧
        ∀ l, s.shared.Settled l) ∧
    (∀ s', next s .expandEnd = some s' → s.shared.posts = 1) ∧
    (s.shared.modifier = .expandWait →
      (∀ l, (s.thread l).pc = .idle ∧ s.shared.cpu.posted l = false) → s.shared.posts = 1) ∧
    ∀ l, (s.thread l).pc ≠ .idle → (next s (.soft l)).isSome = true := by
  have hinv := h.inv
  refine ⟨fun l hidle hposted c hlt hlev hlarge => hinv.handled_eq hidle hposted hlt hlev hlarge,
    fun l ndx s' hstep hz hlev p hp hp' => ?_, fun l s' hstep hne => ?_, fun s' hstep => ?_,
    hinv.posted_of_quiescent, fun l hidle => ?_⟩
  · obtain ⟨sh, hsh, -⟩ := map_eq_some_iff.1 hstep
    obtain ⟨-, -, hlt, hf, -⟩ := expireStep_some hsh
    exact hinv.slot_free hlt hf hz hp hp'
  · obtain ⟨r, hr, rfl⟩ := map_eq_some_iff.1 hstep
    exact hinv.post_once hr hne
  · obtain ⟨sh, hsh, -⟩ := map_eq_some_iff.1 hstep
    unfold modifierStep at hsh
    dsimp only at hsh
    split at hsh
    next hm =>
      have hne : s.shared.posts ≠ 0 := by
        rw [← hinv.shared.semaExpand hm.1]
        exact hm.2
      have := (hinv.resize.posted hm.1 (.inl hne)).1
      omega
    next => cases hsh
  · obtain ⟨r, hr, -⟩ := hinv.soft_some l hidle
    unfold next
    dsimp only
    rw [hr]
    rfl

/-! ## Runs of one cyclic -/

def run (s : Sys) (es : List Event) : Option Sys := es.foldlM next s

/-- The event is not the cross call of a resize. -/
def Event.tame : Event → Bool
  | .expandXcall => false
  | _ => true

theorem Event.tame.quiet (h : e.tame = true) (s : Sys) : Quiet s e := by
  cases e
  all_goals trivial

theorem Sys.Reach.run : ∀ {es : List Event} {s s' : Sys}, s.Reach → es.all Event.tame = true →
    Osol.Cyc.run s es = some s' → s'.Reach
  | [], _, _, h, _, hr => Option.some.inj hr ▸ h
  | e :: es, s, s', h, hq, hr => by
    rw [all_cons, Bool.and_eq_true] at hq
    obtain ⟨s1, hs, hr⟩ := bind_eq_some_iff.1 hr
    exact (h.step (Event.tame.quiet hq.1 s) hs).run hq.2 hr

/-- A cyclic of the low level expires twice and is handled. -/
def twice : List Event :=
  [.add ⟨7, 8, .soft .low⟩ 5 100 0 0, .expire 0, .expire 0, .start .low] ++
    replicate 17 (.soft .low)

theorem twice_some : (run .initial twice).isSome = true := by decide +kernel

/-- The state after it. -/
def twiceEnd : Sys := (run .initial twice).get twice_some

theorem cyclic_softint_exact_twice : twiceEnd.Reach ∧
    twiceEnd.shared.handled 0 = twiceEnd.shared.expired 0 ∧ twiceEnd.shared.expired 0 = 2 := by
  have hreach : twiceEnd.Reach :=
    Sys.Reach.initial.run (show twice.all Event.tame = true by decide) (some_get _).symm
  refine ⟨hreach, ?_, by decide +kernel⟩
  exact (cyclic_softint_exact hreach).1 .low (by decide +kernel) (by decide +kernel) 0
    (by decide +kernel) (by decide +kernel) (by decide +kernel)

/-- The cyclic of the low level expires, and the arrays are resized, when `cyclic_softint` has
found its buffer empty and has not looked at `cys_hard` yet. -/
def lost : List Event :=
  [.add ⟨7, 8, .soft .low⟩ 5 100 0 0, .start .low] ++ replicate 5 (.soft .low) ++
    [.expire 0, .expandBegin, .expandSetup, .expandXcall] ++ replicate 12 (.soft .low) ++
    [.start .lock] ++ replicate 17 (.soft .lock) ++ [.expandEnd, .start .low] ++
    replicate 6 (.soft .low)

/-- The expiration stays in the old buffer: when everything is idle again, it has not been
handled. -/
theorem cyclic_softint_loses_expiration :
    (run .initial lost).map (fun s =>
      ((s.thread .low).pc, (s.thread .lock).pc, s.shared.cpu.posted .low, s.shared.cpu.posted .lock,
        s.shared.modifier)) = some (.idle, .idle, false, false, .idle) ∧
    (run .initial lost).map (fun s =>
      ((s.shared.cpu.cyclics 0).level, (s.shared.cpu.cyclics 0).pend, s.shared.large 0,
        s.shared.expired 0, s.shared.handled 0)) = some (.soft .low, 1, false, 1, 0) := by
  constructor <;> decide +kernel

end Osol.Cyc
