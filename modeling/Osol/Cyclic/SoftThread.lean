import Osol.Cyclic.SoftWrites

/-!
# A step of `cyclic_softint`

A soft interrupt that is not idle can always go on. Its step keeps the invariant of its level and
of what is shared, and leaves the other level alone.
-/

namespace Osol.Cyc

open Function

variable {s s' : Shared} {l : SoftLevel} {t t' : Thread} {q q' : List ℕ} {c : ℕ}

/-! ## What is shared -/

section

variable (hs : SharedInv s)
include hs

theorem SharedInv.withHandled {f : ℕ → ℕ}
    (hf : ∀ c, s.cpu.size ≤ c → f c = s.handled c) : SharedInv { s with handled := f } :=
  { hs with beyond := fun c hc => ⟨(hs.beyond c hc).1, (hf c hc).trans (hs.beyond c hc).2⟩ }

theorem SharedInv.withPend {ndx pend : ℕ}
    (hle : pend ≤ (s.cpu.cyclics ndx).pend) : SharedInv (s.withPend ndx pend) := by
  have hok : Slots (s.withPend ndx pend).cpu ∧ ByExpire (s.withPend ndx pend).cpu :=
    pend_ok hs.slots hs.byExpire rfl rfl rfl rfl
  have hfree : ∀ c, ((s.withPend ndx pend).cpu.cyclics c).free = (s.cpu.cyclics c).free := fun c =>
    update_congr Cyclic.free (by rfl) c
  have hpend : ∀ c, ((s.withPend ndx pend).cpu.cyclics c).pend ≤ (s.cpu.cyclics c).pend := by
    intro c
    by_cases hc : c = ndx
    · subst hc
      rwa [s.withPend_self]
    · rw [s.withPend_of_ne _ hc]
  exact
    { hs with
      slots := hok.1
      byExpire := hok.2
      freePend := fun c hf => by
        have := hs.freePend c (hfree c ▸ hf)
        have := hpend c
        omega
      bound := fun c => (hpend c).trans_lt (hs.bound c)
      small := fun c hl => (hpend c).trans_lt (hs.small c hl)
      waiting := fun c hc => by
        rw [hfree]
        exact hs.waiting c hc }

theorem SharedInv.semaV_remove (hu : s.Unpaid c) : SharedInv s.semaV :=
  { hs with
    slots := hs.slots.congr rfl rfl rfl rfl
    sema := fun _ hne => absurd hu.1 (hne c)
    semaRemove := fun _ _ => by
      show s.cpu.modifyWait + 1 ≤ 1
      rw [hu.2]
    semaExpand := fun he => nomatch hu.1.symm.trans he }

theorem SharedInv.semaV_expand (hm : s.modifier = .expandWait) :
    SharedInv { s.semaV with posts := s.posts + 1 } :=
  { hs with
    slots := hs.slots.congr rfl rfl rfl rfl
    ready := fun he => nomatch hm.symm.trans he
    sema := fun hne => absurd hm hne
    semaRemove := fun _ hc => nomatch hm.symm.trans hc
    semaExpand := fun he => congrArg (· + 1) (hs.semaExpand he) }

theorem SharedInv.modifyLevels (hm : s.modifier = .expandWait) (n : ℕ) :
    SharedInv { s with cpu := { s.cpu with modifyLevels := n } } :=
  { hs with
    slots := hs.slots.congr rfl rfl rfl rfl
    ready := fun he => nomatch hm.symm.trans he }

theorem SharedInv.softint (l : SoftLevel) : SharedInv { s with cpu := s.cpu.softint l } :=
  { hs with slots := hs.slots.congr rfl rfl rfl rfl }

end

theorem setSoftbuf_of_ne {l' : SoftLevel} (h : l' ≠ l) (s : Shared) (sb : SoftBuf) :
    (s.setSoftbuf l sb).cpu.softbuf l' = s.cpu.softbuf l' :=
  update_of_ne h ..

theorem SharedInv.setCons (hs : SharedInv s) {b : Bool} (hb : b = (s.cpu.softbuf l).soft) (n : ℕ) :
    SharedInv (s.setSoftbuf l ((s.cpu.softbuf l).setCons b n)) := by
  refine { hs with
    slots := hs.slots.congr rfl rfl rfl rfl
    settled := fun hm l' => ?_
    ready := fun hm => ⟨(hs.ready hm).1, (hs.ready hm).2.1, fun l' => ?_⟩ }
  · by_cases hl : l' = l
    · subst hl
      rw [settled_setSoftbuf]
      exact hs.settled hm l'
    · unfold Shared.Settled
      rw [setSoftbuf_of_ne hl]
      exact hs.settled hm l'
  · by_cases hl : l' = l
    · subst hl
      have hset : s.Settled l' := hs.settled (by rw [show s.modifier = _ from hm]; simp) l'
      have hne : (!(s.cpu.softbuf l').hard) ≠ b := by
        rw [hb, ← show (s.cpu.softbuf l').hard = _ from hset]
        simp
      rw [setSoftbuf_self, SoftBuf.setCons_hard, SoftBuf.setCons_of_ne _ _ hne]
      exact (hs.ready hm).2.2 l'
    · rw [setSoftbuf_of_ne hl]
      exact (hs.ready hm).2.2 l'

theorem SharedInv.switch (hs : SharedInv s) (hns : ¬ s.Settled l) (sb : SoftBuf) :
    SharedInv (s.setSoftbuf l sb) := by
  have hm : s.modifier = .expandWait := by
    by_contra hne
    exact hns (hs.settled hne l)
  exact
    { hs with
      slots := hs.slots.congr rfl rfl rfl rfl
      settled := fun hne => absurd hm hne
      ready := fun he => nomatch hm.symm.trans he }

/-! ## A step -/

structure Stepped (s s' : Shared) (l : SoftLevel) (t' : Thread) : Prop where
  own : ∃ q q', LevelInv s' l t' q q'
  shared : SharedInv s'
  levels : ∀ c, (s'.cpu.cyclics c).level = (s.cpu.cyclics c).level
  buffers : ∀ l' ≠ l, SameBuffers s s' l'
  others : ∀ c, (s.cpu.cyclics c).level ≠ .soft l → SameCounts s s' c

theorem sameCounts_of_eq (hc : s'.cpu.cyclics = s.cpu.cyclics) (hm : s'.Unpaid c ↔ s.Unpaid c)
    (hr : s.Unpaid c → s'.cpu.rpend = s.cpu.rpend) (he : s'.expired = s.expired)
    (hh : s'.handled = s.handled) (hl : s'.large = s.large) : SameCounts s s' c := by
  have hpending : s'.Pending c ↔ s.Pending c := by
    unfold Shared.Pending
    rw [hc, hm]
  have hdue : s'.due c = s.due c := by
    by_cases hu : s.Unpaid c
    · rw [(hm.2 hu).due, hu.due, hr hu]
    · rw [Shared.due_of_paid hu, Shared.due_of_paid (hm.not.2 hu), hc]
  exact ⟨⟨by rw [hc], by rw [hc], by rw [hc], hpending, hm.2, by rw [hl]; exact id⟩, hdue,
    by rw [he], by rw [hh]⟩

theorem SharedInv.stepped_read (hs : SharedInv s) (h : LevelInv s l t' q q') : Stepped s s l t' where
  own := ⟨q, q', h⟩
  shared := hs
  levels := fun _ => rfl
  buffers := fun _ _ => .of_softbuf rfl rfl rfl rfl id
  others := fun _ _ => sameCounts_of_eq rfl Iff.rfl (fun _ => rfl) rfl rfl rfl

theorem SharedInv.reads (hs : SharedInv s) (h : LevelInv s l t' q q') :
    ∃ r, some (s, t') = some r ∧ Stepped s r.1 l r.2 := ⟨_, rfl, hs.stepped_read h⟩

theorem SharedInv.stepped_handled (hs : SharedInv s) (hlt : c < s.cpu.size)
    (hlev : (s.cpu.cyclics c).level = .soft l) {n : ℕ}
    (h : LevelInv { s with handled := update s.handled c n } l t' q q') :
    Stepped s { s with handled := update s.handled c n } l t' where
  own := ⟨q, q', h⟩
  shared := hs.withHandled fun d hd => update_of_ne (by omega) ..
  levels := fun _ => rfl
  buffers := fun _ _ => sameBuffers_handled ..
  others := fun d hd => ⟨sameCyclic_handled .., rfl, rfl,
    update_of_ne (fun he : d = c => hd (he ▸ hlev)) ..⟩

theorem SharedInv.stepped_frame (hs' : SharedInv s') (h : LevelInv s l t' q q')
    (hb : ∀ l', SameBuffers s s' l') (hc : ∀ c, SameCounts s s' c) : Stepped s s' l t' where
  own := ⟨q, q', h.frame_all (hb l) hc⟩
  shared := hs'
  levels := fun c => (hc c).level
  buffers := fun l' _ => hb l'
  others := fun c _ => hc c

theorem sameBuffers_setSoftbuf {l' : SoftLevel} (h : l' ≠ l) (s : Shared) (sb : SoftBuf) :
    SameBuffers s (s.setSoftbuf l sb) l' :=
  .of_softbuf (setSoftbuf_of_ne h s sb) rfl rfl rfl id

theorem SharedInv.stepped_setSoftbuf {sb : SoftBuf} (hs' : SharedInv (s.setSoftbuf l sb))
    (h : LevelInv (s.setSoftbuf l sb) l t' q q') : Stepped s (s.setSoftbuf l sb) l t' where
  own := ⟨q, q', h⟩
  shared := hs'
  levels := fun _ => rfl
  buffers := fun _ hl => sameBuffers_setSoftbuf hl ..
  others := fun _ _ => sameCounts_of_eq rfl Iff.rfl (fun _ => rfl) rfl rfl rfl

section Step

variable (h : LevelInv s l t q q') (hs : SharedInv s)

include h hs

omit hs in
theorem LevelInv.ndx_level (hf : t.ndx ∈ q) : t.ndx < s.cpu.size ∧ (s.cpu.cyclics t.ndx).level = .soft l :=
  have hmem := h.queue.mem _ (List.mem_append_left _ hf)
  ⟨hmem.1, hmem.2.1⟩

theorem LevelInv.stepped_call (hp : t.pc = .call) :
    Stepped s (s.count t.ndx t.handler t.arg) l { t with pc := .reread } := by
  have hready : Ready s l t q := h.known_at hp
  have hcall := h.call hp
  rw [hready.count_eq] at hcall ⊢
  obtain ⟨hlt, hlev⟩ := h.ndx_level hready.mem
  exact hs.stepped_handled hlt hlev hcall

theorem LevelInv.stepped_cas (hp : t.pc = .cas) : ∃ a, s.array t.cyclics = some a ∧
      ∀ r, r = (if (a t.ndx).pend = t.pend then
          (s.setPend t.cyclics t.ndx (npend t.pend).toNat,
            { t with pc := if 0 < (npend t.pend).toInt then .call else .advance })
        else (s, { t with pc := .reread })) → Stepped s r.1 l r.2 := by
  obtain ⟨hready, hpos⟩ := h.known_at hp
  obtain ⟨a, ha, hsame⟩ := h.cas_array hs hp
  refine ⟨a, ha, ?_⟩
  rintro r rfl
  by_cases heq : (a t.ndx).pend = t.pend
  · obtain ⟨hgen, hpend⟩ := hsame heq
    have hlt : t.pend < 2 ^ 32 := hpend ▸ hs.bound t.ndx
    simp only [if_pos heq, toNat_npend hpos hlt, npend_pos_iff hpos hlt]
    have hset : s.setPend t.cyclics t.ndx (t.pend - 1) = s.withPend t.ndx (t.pend - 1) := if_pos hgen
    have hown : ∃ q q', LevelInv (s.withPend t.ndx (t.pend - 1)) l
        { t with pc := if 2 ≤ t.pend ∧ t.pend ≤ 2 ^ 31 then .call else .advance } q q' := by
      by_cases hagain : 2 ≤ t.pend ∧ t.pend ≤ 2 ^ 31
      · rw [if_pos hagain]
        exact ⟨q, q', h.cas_again hs hp hpend hagain.1⟩
      · rw [if_neg hagain]
        obtain ⟨q1, h1⟩ := h.cas_last hs hp hpend hagain
        exact ⟨q1, q', h1⟩
    rw [hset]
    refine ⟨hown, hs.withPend (by omega), fun c => update_congr Cyclic.level (by rfl) c,
      fun l' _ => sameBuffers_withPend .., fun c hc => sameCounts_withPend s _ ?_⟩
    rintro rfl
    exact hc (h.ndx_level hready.mem).2
  · rw [if_neg heq]
    exact hs.stepped_read (h.cas_fails hp)

theorem LevelInv.stepped_rpendCall (hp : t.pc = .rpendCall) :
    ∃ r, softStep s l t = some r ∧ Stepped s r.1 l r.2 := by
  obtain ⟨hready, hgen, hunpaid⟩ := h.known_at hp
  obtain ⟨hlt, hlev⟩ := h.ndx_level hready.mem
  unfold softStep
  rw [hp]
  by_cases hn : t.count = 0
  · rw [if_pos hn]
    obtain ⟨q1, h1⟩ := h.rpendCall_zero hs hp hn
    refine ⟨_, rfl, ⟨q1, q', h1⟩, hs.semaV_remove hunpaid, fun _ => rfl,
      fun l' _ => sameBuffers_semaV .., fun c hc => sameCounts_of_eq rfl ?_ (fun _ => rfl) rfl rfl rfl⟩
    refine iff_of_false (s.semaV_paid c) fun hu => hc ?_
    rwa [← hunpaid.unique hu]
  · rw [if_neg hn]
    refine ⟨_, rfl, ?_⟩
    have hcall := h.rpendCall_succ hp hn
    rw [hp] at hcall
    rw [hready.count_eq] at hcall ⊢
    exact hs.stepped_handled hlt hlev hcall

theorem LevelInv.stepped_casLev (hp : t.pc = .casLev) (hm : s.modifier = .expandWait) :
    ∃ r, softStep s l t = some r ∧ Stepped s r.1 l r.2 := by
  obtain ⟨hres, hwoken⟩ := h.known_at hp
  unfold softStep
  rw [hp]
  by_cases he : s.cpu.modifyLevels = t.lev
  · rw [if_pos he]
    have hmove : LevelInv s l { t with pc := .post } q q' := h.move_calm (hp ▸ rfl) rfl hwoken
    exact ⟨_, rfl, (hs.modifyLevels hm _).stepped_frame hmove
      (fun _ => .of_softbuf rfl rfl rfl rfl id)
      fun _ => sameCounts_of_eq rfl Iff.rfl (fun _ => rfl) rfl rfl rfl⟩
  · rw [if_neg he]
    exact hs.reads (h.move_calm (hp ▸ rfl) rfl ⟨hres, hwoken⟩)

theorem LevelInv.stepped_post (hp : t.pc = .post) (hm : t.lev = 1 → s.modifier = .expandWait) :
    ∃ r, softStep s l t = some r ∧ Stepped s r.1 l r.2 := by
  have hwoken : Woken s l q q' := h.known_at hp
  have hmove : LevelInv s l { t with pc := .idle } q q' := h.move_calm (hp ▸ rfl) rfl hwoken
  unfold softStep
  rw [hp]
  by_cases hlev : t.lev + 1 = 2
  · rw [if_pos hlev]
    have hm := hm (by omega)
    have hiff : ∀ c, Shared.Unpaid { s.semaV with posts := s.posts + 1 } c ↔ s.Unpaid c := fun c =>
      iff_of_false (fun hu => nomatch hm.symm.trans hu.1) fun hu => nomatch hm.symm.trans hu.1
    exact ⟨_, rfl, (hs.semaV_expand hm).stepped_frame hmove
      (fun _ => .of_softbuf rfl rfl rfl rfl id)
      fun c => sameCounts_of_eq rfl (hiff c) (fun _ => rfl) rfl rfl rfl⟩
  · rw [if_neg hlev]
    by_cases hl : l = .lock
    · rw [if_pos hl]
      have hbufs : ∀ l', SameBuffers s { s with cpu := s.cpu.softint .low } l' := by
        refine fun l' => .of_softbuf rfl rfl rfl rfl fun hpost => ?_
        cases l' with
        | low => rfl
        | lock => exact hpost
      exact ⟨_, rfl, (hs.softint .low).stepped_frame hmove hbufs fun _ =>
        sameCounts_of_eq rfl Iff.rfl (fun _ => rfl) rfl rfl rfl⟩
    · rw [if_neg hl]
      exact hs.reads hmove

theorem LevelInv.step (hidle : t.pc ≠ .idle)
    (hres : t.resized = true → t.pc ≠ .post → s.modifier = .expandWait)
    (hpost : t.pc = .post → t.lev = 1 → s.modifier = .expandWait) :
    ∃ r, softStep s l t = some r ∧ Stepped s r.1 l r.2 := by
  cases hp : t.pc
  case idle => exact absurd hp hidle
  case rpendCall => exact h.stepped_rpendCall hs hp
  case casLev =>
    have hk : t.resized = true ∧ Woken s l q q' := h.known_at hp
    exact h.stepped_casLev hs hp (hres hk.1 (by simp [hp]))
  case post => exact h.stepped_post hs hp (hpost hp)
  all_goals
    unfold softStep
    rw [hp]
  case start => exact hs.reads (h.start hp)
  case top => exact hs.reads (h.top hp)
  case readCons => exact hs.reads (h.readCons hp)
  case readMask => exact hs.reads (h.readMask hp)
  case test => exact hs.reads (h.test hp)
  case readNdx => exact hs.reads (h.readNdx hp)
  case readHandler =>
    obtain ⟨a, ha, h'⟩ := h.readHandler hs hp
    rw [ha]
    exact hs.reads h'
  case readArg =>
    obtain ⟨a, ha, h'⟩ := h.readArg hs hp
    rw [ha]
    exact hs.reads h'
  case call => exact ⟨_, rfl, h.stepped_call hs hp⟩
  case reread =>
    obtain ⟨a, ha, h'⟩ := h.reread hs hp
    rw [ha]
    exact hs.reads h'
  case checkState => exact hs.reads (h.checkState hs hp)
  case reloadCyc => exact hs.reads (h.reloadCyc hp)
  case reloadNdx => exact hs.reads (h.reloadNdx hp)
  case cas =>
    obtain ⟨a, ha, h'⟩ := h.stepped_cas hs hp
    rw [ha]
    exact ⟨_, rfl, h' _ rfl⟩
  case rpendHandler =>
    obtain ⟨a, ha, h'⟩ := h.rpendHandler hs hp
    rw [ha]
    exact hs.reads h'
  case rpendArg =>
    obtain ⟨a, ha, h'⟩ := h.rpendArg hs hp
    rw [ha]
    exact hs.reads h'
  case rpendRead => exact hs.reads (h.rpendRead hs hp)
  case advance =>
    have hk : InLoop s l t := h.known_at hp
    exact ⟨_, rfl, (hs.setCons hk.soft _).stepped_setSoftbuf (h.advance hp)⟩
  case checkHard => exact hs.reads (h.checkHard hp)
  case switchCyc => exact hs.reads (h.switchCyc hp)
  case readHard => exact hs.reads (h.readHard hp)
  case writeSoft =>
    have hk : ¬ s.Settled l ∧ q = [] ∧ t.cyclics = s.gen ∧ t.hard = (s.cpu.softbuf l).hard := h.known_at hp
    exact ⟨_, rfl, (hs.switch hk.1 _).stepped_setSoftbuf (h.writeSoft hp)⟩
  case readLev => exact hs.reads (h.readLev hp _)

end Step

end Osol.Cyc
