import Osol.Cyclic.SoftResize

/-!
# What happens between the accesses

The high level adds and removes cyclics, expires them and switches the buffers, between any two
accesses of the soft interrupts.
-/

namespace Osol.Cyc

open Osol.Lib Function List SoftBuf Bool

variable {s s' : Shared} {l : SoftLevel} {t : Thread} {q q' : List ℕ} {c ndx : ℕ}

/-! ## `cyclic_expire` -/

variable (sb : SoftBuf)

/-- An entry is added to the buffer of the high level. -/
def SoftBuf.produce (ndx : ℕ) : SoftBuf :=
  { sb with
    buf := update sb.buf sb.hard
      { sb.buf sb.hard with
        buf := update (sb.buf sb.hard).buf
          ((sb.buf sb.hard).prodndx &&& (sb.buf sb.hard).sizemask) ndx
        prodndx := (sb.buf sb.hard).prodndx + 1 } }

theorem SoftBuf.produce_self (ndx : ℕ) : (sb.produce ndx).buf sb.hard = { sb.buf sb.hard with
      buf := update (sb.buf sb.hard).buf
        ((sb.buf sb.hard).prodndx &&& (sb.buf sb.hard).sizemask) ndx
      prodndx := (sb.buf sb.hard).prodndx + 1 } :=
  update_self ..

theorem SoftBuf.produce_of_ne (ndx : ℕ) {b : Bool} (h : b ≠ sb.hard) : (sb.produce ndx).buf b = sb.buf b :=
  update_of_ne h ..

theorem SoftBuf.produce_consndx (ndx : ℕ) (b : Bool) :
    ((sb.produce ndx).buf b).consndx = (sb.buf b).consndx := by
  by_cases hb : b = sb.hard
  · rw [hb, sb.produce_self]
  · rw [sb.produce_of_ne ndx hb]

theorem SoftBuf.produce_sizemask (ndx : ℕ) (b : Bool) :
    ((sb.produce ndx).buf b).sizemask = (sb.buf b).sizemask := by
  by_cases hb : b = sb.hard
  · rw [hb, sb.produce_self]
  · rw [sb.produce_of_ne ndx hb]

theorem SoftBuf.produce_ring {sb : SoftBuf} {k lo : ℕ}
    (h : RingHolds (sb.buf sb.hard).buf (sb.buf sb.hard).sizemask lo (sb.buf sb.hard).prodndx q)
    (hk : (sb.buf sb.hard).sizemask + 1 = 2 ^ k) (hlen : q.length ≤ (sb.buf sb.hard).sizemask)
    (ndx : ℕ) :
    RingHolds ((sb.produce ndx).buf sb.hard).buf ((sb.produce ndx).buf sb.hard).sizemask lo
      ((sb.produce ndx).buf sb.hard).prodndx (q ++ [ndx]) := by
  rw [sb.produce_self]
  exact h.enqueue hk hlen ndx

/-- The count of a cyclic that has something pending already. -/
def morePend (pend : ℕ) : ℕ :=
  if (pend + 1) % 2 ^ 32 = 0 then 2 ^ 32 - 1 else (pend + 1) % 2 ^ 32

/-- An expiration of `ndx` that leaves the buffers `sb` and the pending count `pend`. -/
def Shared.expire (s : Shared) (l : SoftLevel) (sb : SoftLevel → SoftBuf) (ndx pend : ℕ) : Shared :=
  { s with
    cpu := (({ s.cpu with softbuf := sb }).setCyclic ndx
      { s.cpu.cyclics ndx with pend := pend }).softint l
    expired := update s.expired ndx (s.expired ndx + 1)
    large := update s.large ndx (s.large ndx || decide (2 ^ 31 ≤ pend)) }

theorem expireStep_some (h : expireStep s ndx = some s') :
    ∃ l, (s.cpu.cyclics ndx).level = .soft l ∧ ndx < s.cpu.size ∧ (s.cpu.cyclics ndx).free = false ∧
    (((s.cpu.cyclics ndx).pend = 0 ∧ s' = s.expire l
        (update s.cpu.softbuf l ((s.cpu.softbuf l).produce ndx)) ndx 1) ∨
      (s.cpu.cyclics ndx).pend ≠ 0 ∧
      s' = s.expire l s.cpu.softbuf ndx (morePend (s.cpu.cyclics ndx).pend)) := by
  unfold expireStep at h
  split at h
  · cases h
  next l hlev =>
    split at h
    next hc =>
      refine ⟨l, hlev, hc.1, hc.2, ?_⟩
      rw [← Option.some.inj h]
      unfold expireSoft
      by_cases hz : (s.cpu.cyclics ndx).pend = 0
      · left
        rw [if_pos hz]
        refine ⟨hz, ?_⟩
        rw [show (CycCpu.softint (CycCpu.setCyclic _ ndx _) l).cyclics ndx = _ from
          update_self ..]
        rfl
      right
      rw [if_neg hz]
      refine ⟨hz, ?_⟩
      rw [show (CycCpu.softint (CycCpu.setCyclic _ ndx _) l).cyclics ndx = _ from
        update_self ..]
      rfl
    · cases h

section Expire

variable {sb : SoftLevel → SoftBuf} {pend : ℕ}

theorem expire_cyclics_self (s : Shared) (l : SoftLevel) (sb : SoftLevel → SoftBuf) (ndx pend : ℕ) :
    (s.expire l sb ndx pend).cpu.cyclics ndx = { s.cpu.cyclics ndx with pend := pend } :=
  update_self ..

theorem expire_large_self (s : Shared) (l : SoftLevel) (sb : SoftLevel → SoftBuf) (ndx pend : ℕ) :
    (s.expire l sb ndx pend).large ndx = (s.large ndx || decide (2 ^ 31 ≤ pend)) :=
  update_self ..

theorem sameCounts_expire (s : Shared) (l : SoftLevel) (sb : SoftLevel → SoftBuf) (pend : ℕ)
    (hc : c ≠ ndx) : SameCounts s (s.expire l sb ndx pend) c := by
  have he : (s.expire l sb ndx pend).cpu.cyclics c = s.cpu.cyclics c := update_of_ne hc ..
  have hlarge : (s.expire l sb ndx pend).large c = s.large c := update_of_ne hc ..
  have hpending : (s.expire l sb ndx pend).Pending c ↔ s.Pending c := by
    unfold Shared.Pending
    rw [he]
    exact Iff.rfl
  have hdue : (s.expire l sb ndx pend).due c = s.due c := by
    unfold Shared.due
    rw [he]
    rfl
  exact ⟨⟨by rw [he], by rw [he], by rw [he], hpending, id, by rw [hlarge]; exact id⟩, hdue,
    update_of_ne hc .., rfl⟩

theorem SharedInv.not_unpaid (hs : SharedInv s) (hf : (s.cpu.cyclics ndx).free = false) :
    ¬ s.Unpaid ndx := by
  intro hu
  rw [(hs.waiting ndx hu.1).2.2] at hf
  cases hf

theorem SharedInv.expire (hs : SharedInv s) (hlt : ndx < s.cpu.size)
    (hf : (s.cpu.cyclics ndx).free = false) (hp : pend < 2 ^ 32)
    (hsb : ∀ l', (sb l').hard = (s.cpu.softbuf l').hard ∧ (sb l').soft = (s.cpu.softbuf l').soft ∧
      (sb l').buf (!(s.cpu.softbuf l').hard) = (s.cpu.softbuf l').buf (!(s.cpu.softbuf l').hard)) :
    SharedInv (s.expire l sb ndx pend) := by
  have hself := expire_cyclics_self s l sb ndx pend
  have hne : ∀ {c}, c ≠ ndx → (s.expire l sb ndx pend).cpu.cyclics c = s.cpu.cyclics c :=
    fun hc => update_of_ne hc ..
  have hok : Slots (s.expire l sb ndx pend).cpu ∧ ByExpire (s.expire l sb ndx pend).cpu :=
    pend_ok hs.slots hs.byExpire rfl rfl rfl rfl
  have hfree : ∀ c, ((s.expire l sb ndx pend).cpu.cyclics c).free = (s.cpu.cyclics c).free :=
    fun c => update_congr Cyclic.free (by rfl) c
  refine { hs with
    slots := hok.1
    byExpire := hok.2
    freePend := fun c hc => ?_
    bound := fun c => ?_
    small := fun c hc => ?_
    settled := fun hm l' => ?_
    ready := fun hm => ⟨(hs.ready hm).1, (hs.ready hm).2.1, fun l' => ?_⟩
    waiting := fun c hc => ?_
    beyond := fun c hc => ⟨?_, (hs.beyond c hc).2⟩ }
  · rw [hfree] at hc
    have hcn : c ≠ ndx := by
      rintro rfl
      rw [hf] at hc
      cases hc
    rw [hne hcn]
    exact hs.freePend c hc
  · by_cases hcn : c = ndx
    · subst hcn
      rwa [hself]
    · rw [hne hcn]
      exact hs.bound c
  · by_cases hcn : c = ndx
    · subst hcn
      have hc := (expire_large_self s l sb c pend).symm.trans hc
      rw [hself]
      have := of_decide_eq_false (Bool.or_eq_false_iff.1 hc).2
      dsimp only
      omega
    · rw [hne hcn]
      exact hs.small c ((sameCounts_expire s l sb pend hcn).large hc)
  · show (sb l').hard = (sb l').soft
    rw [(hsb l').1, (hsb l').2.1]
    exact hs.settled hm l'
  · show ((sb l').buf (!(sb l').hard)).prodndx = 0 ∧ ((sb l').buf (!(sb l').hard)).consndx = 0 ∧
      ((sb l').buf (!(sb l').hard)).sizemask = _
    rw [(hsb l').1, (hsb l').2.2]
    exact (hs.ready hm).2.2 l'
  · rw [hfree]
    exact hs.waiting c hc
  · have hc : s.cpu.size ≤ c := hc
    show update s.expired ndx (s.expired ndx + 1) c = 0
    rw [update_of_ne (by omega)]
    exact (hs.beyond c hc).1

theorem posted_expire (s : Shared) (l l' : SoftLevel) (sb : SoftLevel → SoftBuf) (ndx pend : ℕ)
    (h : s.cpu.posted l' = true) : (s.expire l sb ndx pend).cpu.posted l' = true := by
  show update s.cpu.posted l true l' = true
  by_cases hl : l' = l
  · rw [hl, update_self]
  · rwa [update_of_ne hl]

theorem Account.expire (h : Account s l t) (hs : SharedInv s)
    (hf : (s.cpu.cyclics ndx).free = false) (hrp : t.pc = .rpendCall → t.ndx ≠ ndx)
    (hp : pend < 2 ^ 31 → pend = (s.cpu.cyclics ndx).pend + 1) :
    Account (s.expire l sb ndx pend) l t := by
  have hpaid := hs.not_unpaid hf
  intro c hlev hlarge
  by_cases hcn : c = ndx
  · subst hcn
    rw [expire_cyclics_self] at hlev
    have hl := (expire_large_self s l sb c pend).symm.trans hlarge
    obtain ⟨hl, hsmall⟩ := Bool.or_eq_false_iff.1 hl
    have hsmall := of_decide_eq_false hsmall
    have hacc := h c hlev hl
    unfold owed at hacc ⊢
    rw [if_neg fun hh => hrp hh.1 hh.2, Shared.due_of_paid hpaid] at hacc
    rw [if_neg fun hh => hrp hh.1 hh.2, Shared.due_of_paid (s := s.expire l sb c pend) hpaid,
      expire_cyclics_self]
    show update s.expired c (s.expired c + 1) c + _ = s.handled c + pend
    rw [update_self, hp (by omega)]
    omega
  · have hsame := sameCounts_expire s l sb pend hcn
    rw [hsame.level] at hlev
    have hacc := h c hlev (hsame.large hlarge)
    unfold owed at hacc ⊢
    rwa [hsame.expired, hsame.handled, hsame.due]

theorem morePend_pos (pend : ℕ) : 0 < morePend pend := by
  unfold morePend
  split_ifs
  · decide
  · omega

theorem morePend_lt (pend : ℕ) : morePend pend < 2 ^ 32 := by
  unfold morePend
  split_ifs
  · decide
  · exact Nat.mod_lt _ (by decide)

theorem morePend_eq {n : ℕ} (hn : n < 2 ^ 32) (h : morePend n < 2 ^ 31) : morePend n = n + 1 := by
  unfold morePend at h ⊢
  split_ifs at h ⊢ with hz <;> omega

section

variable (h : LevelInv s l t q q') (hs : SharedInv s) (hf : (s.cpu.cyclics ndx).free = false)
include h hs hf

theorem LevelInv.rpend_ne (hp : t.pc = .rpendCall) : t.ndx ≠ ndx := by
  have hk := h.known_at hp
  rintro rfl
  exact hs.not_unpaid hf hk.2.2

theorem LevelInv.expire_more (hp : (s.cpu.cyclics ndx).pend ≠ 0) :
    LevelInv (s.expire l s.cpu.softbuf ndx (morePend (s.cpu.cyclics ndx).pend)) l t q q' := by
  have hbufs : SameBuffers s
      (s.expire l s.cpu.softbuf ndx (morePend (s.cpu.cyclics ndx).pend)) l :=
    .of_softbuf rfl rfl rfl rfl fun h => posted_expire _ _ _ _ _ _ h
  have hsame : ∀ c, SameCyclic s
      (s.expire l s.cpu.softbuf ndx (morePend (s.cpu.cyclics ndx).pend)) c := by
    intro c
    by_cases hcn : c = ndx
    · subst hcn
      have he := expire_cyclics_self s l s.cpu.softbuf c (morePend (s.cpu.cyclics c).pend)
      refine ⟨by rw [he], by rw [he], by rw [he], ?_, id, ?_⟩
      · unfold Shared.Pending
        rw [he]
        exact iff_of_true (.inl (morePend_pos _)) (.inl (Nat.pos_of_ne_zero hp))
      · rw [expire_large_self]
        exact fun hl => (Bool.or_eq_false_iff.1 hl).1
    · exact (sameCounts_expire s l _ _ hcn).toSameCyclic
  refine ⟨h.queue.frame hbufs (fun c _ => hsame c) fun c _ => .inl (hsame c),
    h.known.frame hbufs fun c _ => hsame c, ?_⟩
  exact h.account.expire hs hf (h.rpend_ne hs hf) fun hlt => morePend_eq (hs.bound ndx) hlt

end

theorem QueueInv.room {done : ℕ} (h : QueueInv s l q q' done) (hlt : ndx < s.cpu.size)
    (hn : ndx ∉ q ++ q') : (q ++ q').length ≤ (s.hardPc l).sizemask := by
  have hnodup : (ndx :: (q ++ q')).Nodup := nodup_cons.2 ⟨hn, h.nodup⟩
  have hsub : (ndx :: (q ++ q')).Subperm (range s.cpu.size) := by
    refine subperm_of_subset hnodup fun c hc => ?_
    rw [mem_range]
    rcases mem_cons.1 hc with rfl | hc
    · exact hlt
    · exact (h.mem c hc).1
  have hle := hsub.length_le
  have hmask := h.mask
  rw [length_range, length_cons] at hle
  omega

theorem Shared.Settled.hardPc (h : s.Settled l) : s.hardPc l = s.softPc l := by
  unfold Shared.hardPc Shared.softPc
  rw [show (s.cpu.softbuf l).hard = _ from h]

theorem softbuf_expire_self (s : Shared) (l : SoftLevel) (sb : SoftBuf) (ndx pend : ℕ) :
    (s.expire l (update s.cpu.softbuf l sb) ndx pend).cpu.softbuf l = sb :=
  update_self ..

section

variable (h : LevelInv s l t q q') (hs : SharedInv s) (hlt : ndx < s.cpu.size)
  (hlev : (s.cpu.cyclics ndx).level = .soft l) (hf : (s.cpu.cyclics ndx).free = false)
  (hz : (s.cpu.cyclics ndx).pend = 0)
include h hs hlt hlev hf hz

theorem LevelInv.produce (hn : ndx ∉ q ++ q') {p p' : List ℕ}
    (hpp : p ++ p' = q ++ q' ++ [ndx]) (hset : s.Settled l → p' = [])
    (huns : ¬ s.Settled l → p = q) (hhead : ∀ c, q.head? = some c → p.head? = some c)
    {sb : SoftBuf} (hsb : sb = (s.cpu.softbuf l).produce ndx)
    (hring : RingHolds (sb.buf sb.soft).buf (sb.buf sb.soft).sizemask
      ((sb.buf sb.soft).consndx + t.pc.done) (sb.buf sb.soft).prodndx p)
    (hnew : ¬ s.Settled l → RingHolds (sb.buf sb.hard).buf (sb.buf sb.hard).sizemask
      (sb.buf sb.hard).consndx (sb.buf sb.hard).prodndx p') :
    LevelInv (s.expire l (update s.cpu.softbuf l sb) ndx 1) l t p p' := by
  have hsb' := softbuf_expire_self s l sb ndx 1
  have hself := expire_cyclics_self s l (update s.cpu.softbuf l sb) ndx 1
  have hsame : ∀ {c}, c ≠ ndx → SameCounts s _ c :=
    fun hc => sameCounts_expire s l (update s.cpu.softbuf l sb) 1 hc
  have hqne : ∀ {c}, c ∈ q ++ q' → c ≠ ndx := fun hc he => hn (he ▸ hc)
  have hsoft : (s.expire l (update s.cpu.softbuf l sb) ndx 1).softPc l = sb.buf sb.soft := by
    unfold Shared.softPc
    rw [hsb']
  have hhard : (s.expire l (update s.cpu.softbuf l sb) ndx 1).hardPc l = sb.buf sb.hard := by
    unfold Shared.hardPc
    rw [hsb']
  have hsettled : (s.expire l (update s.cpu.softbuf l sb) ndx 1).Settled l ↔ s.Settled l := by
    unfold Shared.Settled
    rw [hsb', hsb]
    exact Iff.rfl
  have hposted : (s.expire l (update s.cpu.softbuf l sb) ndx 1).cpu.posted l = true := update_self ..
  refine ⟨?_, ?_, ?_⟩
  · refine
      { ring := by rw [hsoft]; exact hring
        newRing := by rw [hsettled, hhard]; exact hnew
        settled := by rw [hsettled]; exact hset
        mask := ?_, nodup := ?_, mem := fun c hc => ?_
        queued := fun c hc hl hla hpe => ?_, oldSame := fun hns a ha c hc => ?_ }
    · rw [hhard, hsb, produce_sizemask]
      exact h.queue.mask
    · rw [hpp]
      refine nodup_append.2 ⟨h.queue.nodup, pairwise_singleton _ _, fun a ha b hb => ?_⟩
      rw [mem_singleton.1 hb]
      exact hqne ha
    · rw [hpp, mem_append, mem_singleton] at hc
      rcases hc with hc | rfl
      · have := hsame (hqne hc)
        rw [this.level, this.pending]
        exact h.queue.mem c hc
      · refine ⟨hlt, ?_, .inl ?_⟩ <;> rw [hself]
        · exact hlev
        · exact Nat.one_pos
    · rw [hpp, mem_append, mem_singleton]
      by_cases hcn : c = ndx
      · exact .inr hcn
      · have := hsame hcn
        rw [this.level] at hl
        exact .inl (h.queue.queued c hc hl (this.large hla) (this.pending.1 hpe))
    · rw [hsettled] at hns
      rw [huns hns] at hc
      have := hsame (hqne (mem_append_left _ hc))
      rw [this.handler, this.arg]
      exact h.queue.oldSame hns a ha c hc
  · refine h.known.carry
      { cyc := fun hc => ?_
        soft := by rw [hsb', hsb]; rfl
        cons := ?_
        mask := ?_
        cyclic := fun c hc => ?_
        head := hhead
        unpaid := fun _ _ hu => hu
        paying := fun _ hg hu => ⟨hg, hu⟩
        woken := fun _ _ => hposted
        drained := fun _ hd hns => ?_
        posted := fun _ _ _ => hposted
        switching := fun hns hq => ⟨hsettled.not.2 hns, by rw [huns hns, hq], rfl, ?_⟩ }
    · unfold CycOk
      rwa [hsettled]
    · rw [hsoft, hsb, produce_consndx]
      rfl
    · rw [hsoft, hsb, produce_sizemask]
      rfl
    · have := hsame (hqne (mem_append_left _ hc))
      exact ⟨this.handler, this.arg⟩
    · rw [hsettled] at hns
      rw [huns hns]
      exact hd hns
    · rw [hsb', hsb]
      rfl
  · refine h.account.expire hs hf (h.rpend_ne hs hf) fun _ => ?_
    rw [hz]

theorem LevelInv.expire_first : ∃ q q', LevelInv (s.expire l
      (update s.cpu.softbuf l ((s.cpu.softbuf l).produce ndx)) ndx 1) l t q q' := by
  obtain ⟨k, hk⟩ := hs.pow
  have hmask : (s.hardPc l).sizemask + 1 = 2 ^ k := h.queue.mask.trans hk
  have hn : ndx ∉ q ++ q' := by
    intro hmem
    rcases (h.queue.mem ndx hmem).2.2 with hpos | hu
    · omega
    · exact hs.not_unpaid hf hu
  have hroom := h.queue.room hlt hn
  rw [length_append] at hroom
  by_cases hset : s.Settled l
  · have hq' := h.queue.settled hset
    refine ⟨q ++ [ndx], [], h.produce hs hlt hlev hf hz hn (by rw [hq']; simp) (fun _ => rfl)
      (fun hns => absurd hset hns) (fun c hc => ?_) rfl ?_ fun hns => absurd hset hns⟩
    · obtain ⟨q1, rfl⟩ := List.head?_eq_some_iff.1 hc
      rfl
    have hring := h.queue.ring
    rw [← hset.hardPc] at hring
    have := produce_ring hring hmask (by rw [show (s.cpu.softbuf l).buf _ = s.hardPc l from rfl]; omega) ndx
    rw [show ((s.cpu.softbuf l).produce ndx).soft = (s.cpu.softbuf l).hard from hset.symm, produce_consndx]
    exact this
  · refine ⟨q, q' ++ [ndx], h.produce hs hlt hlev hf hz hn (by simp)
      (fun hs => absurd hs hset) (fun _ => rfl) (fun _ => id) rfl ?_ fun hns => ?_⟩
    · have hne : (s.cpu.softbuf l).soft ≠ (s.cpu.softbuf l).hard := fun he => hset he.symm
      rw [show ((s.cpu.softbuf l).produce ndx).soft = (s.cpu.softbuf l).soft from rfl,
        produce_of_ne _ _ hne]
      exact h.queue.ring
    · have := produce_ring (h.queue.newRing hns) hmask
        (by rw [show (s.cpu.softbuf l).buf _ = s.hardPc l from rfl]; omega) ndx
      rw [produce_consndx]
      exact this

end

end Expire

end Osol.Cyc
