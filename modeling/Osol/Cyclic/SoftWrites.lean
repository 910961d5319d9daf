import Osol.Cyclic.SoftSteps

/-!
# The writes of a soft interrupt

The accesses of `cyclic_softint` that change the memory, and its calls of handlers.
-/

namespace Osol.Cyc

open Function List Shared

variable {s s' : Shared} {l : SoftLevel} {t t' : Thread} {q q' : List ℕ} {c : ℕ}

/-! ## Calls -/

theorem Ready.count_eq (hr : Ready s l t q) : s.count t.ndx t.handler t.arg =
    { s with handled := update s.handled t.ndx (s.handled t.ndx + 1) } := by
  unfold Shared.count
  rw [if_pos ⟨hr.handler.symm, hr.arg.symm⟩]

theorem sameBuffers_handled (s : Shared) (l : SoftLevel) (f : ℕ → ℕ) :
    SameBuffers s { s with handled := f } l :=
  .of_softbuf rfl rfl rfl rfl id

theorem sameCyclic_handled (s : Shared) (f : ℕ → ℕ) (c : ℕ) : SameCyclic s { s with handled := f } c :=
  ⟨rfl, rfl, rfl, Iff.rfl, id, id⟩

theorem LevelInv.handled (h : LevelInv s l t q q') (hp : t.pc ≠ .advance) (hp' : t'.pc ≠ .advance)
    {f : ℕ → ℕ} (hk : Known s l t' q q' t'.pc) (ha : Account { s with handled := f } l t') :
    LevelInv { s with handled := f } l t' q q' := by
  have hf := sameBuffers_handled s l f
  have hc := sameCyclic_handled s f
  refine ⟨?_, hk.frame hf fun c _ => hc c, ha⟩
  rw [done_calm hp']
  exact (h.queue_calm hp).frame hf (fun c _ => hc c) fun c _ => .inl (hc c)

theorem LevelInv.call (h : LevelInv s l t q q') (hp : t.pc = .call) :
    LevelInv (s.count t.ndx t.handler t.arg) l { t with pc := .reread } q q' := by
  have hready : Ready s l t q := h.known_at hp
  rw [hready.count_eq]
  refine h.handled (by simp [hp]) (by simp) (hready.setPc .reread) fun c hlev hlarge => ?_
  have hacc := h.account c hlev hlarge
  rw [ahead_calm (by rw [hp]; rfl), owed_eq (by simp [hp])] at hacc
  show s.expired c + ahead _ c = update s.handled t.ndx (s.handled t.ndx + 1) c + s.due c
  unfold ahead
  by_cases hc : t.ndx = c
  · subst hc
    rw [update_self, if_pos ⟨rfl, rfl⟩]
    omega
  · rw [update_of_ne (Ne.symm hc), if_neg fun hh => hc hh.2]
    omega

/-! ## A cyclic that is being removed -/

theorem Shared.Unpaid.unique {d : ℕ} (hc : s.Unpaid c) (hd : s.Unpaid d) : c = d := by
  have := hc.1.symm.trans hd.1
  injection this

theorem Shared.Unpaid.due (hc : s.Unpaid c) : s.due c = s.cpu.rpend := if_pos hc

theorem Shared.due_of_paid (hc : ¬ s.Unpaid c) : s.due c = (s.cpu.cyclics c).pend := if_neg hc

theorem SharedInv.unpaid_pend (hs : SharedInv s) (hc : s.Unpaid c) : (s.cpu.cyclics c).pend = 0 :=
  hs.freePend c (hs.waiting c hc.1).2.2

theorem LevelInv.rpendRead (h : LevelInv s l t q q') (hs : SharedInv s) (hp : t.pc = .rpendRead) :
    LevelInv s l { t with
      count := (s.cpu.rpend + (2 ^ 32 - 1)) % 2 ^ 32, pc := .rpendCall } q q' := by
  obtain ⟨hready, hgen, hunpaid⟩ := h.known_at hp
  have hrpend := hs.waiting _ hunpaid.1
  refine ⟨h.queue_calm (by simp [hp]), ⟨?_, hgen, hunpaid⟩, fun c hlev hlarge => ?_⟩
  · exact hready.congr rfl rfl rfl rfl rfl rfl rfl
  have hacc := h.account c hlev hlarge
  rw [owed_eq (by simp [hp])] at hacc
  unfold ahead at hacc
  rw [hp] at hacc
  rw [ahead_calm (by rfl)]
  unfold owed
  by_cases hc : t.ndx = c
  · subst hc
    rw [if_pos ⟨rfl, rfl⟩, hunpaid.due] at hacc
    rw [if_pos ⟨rfl, rfl⟩]
    dsimp only
    omega
  · rw [if_neg fun hh => hc hh.2] at hacc
    rwa [if_neg fun hh => hc hh.2]

theorem LevelInv.rpendCall_succ (h : LevelInv s l t q q') (hp : t.pc = .rpendCall)
    (hn : t.count ≠ 0) :
    LevelInv (s.count t.ndx t.handler t.arg) l { t with count := t.count - 1 } q q' := by
  obtain ⟨hready, hgen, hunpaid⟩ := h.known_at hp
  rw [hready.count_eq]
  refine h.handled (by simp [hp]) (by simp [hp]) ?_ fun c hlev hlarge => ?_
  · rw [hp]
    exact ⟨hready.congr rfl rfl rfl rfl rfl rfl rfl, hgen, hunpaid⟩
  have hacc := h.account c hlev hlarge
  rw [ahead_calm (by rw [hp]; rfl)] at hacc ⊢
  show s.expired c + 0 = update s.handled t.ndx (s.handled t.ndx + 1) c + owed s _ c
  unfold owed at hacc ⊢
  by_cases hc : t.ndx = c
  · subst hc
    rw [if_pos ⟨hp, rfl⟩] at hacc
    rw [update_self, if_pos ⟨hp, rfl⟩]
    dsimp only
    omega
  · rw [if_neg fun hh => hc hh.2] at hacc
    rwa [update_of_ne (Ne.symm hc), if_neg fun hh => hc hh.2]

theorem QueueInv.consume {d : ℕ} (h : QueueInv s l (d :: q) q' 0) (f : SameBuffers s s' l)
    (hq : ∀ c ≠ d, SameCyclic s s' c) (hd : s'.large d = false → ¬ s'.Pending d) :
    QueueInv s' l q q' 1 := by
  have hnodup := h.nodup
  rw [cons_append, nodup_cons] at hnodup
  have hne : ∀ c ∈ q ++ q', c ≠ d := fun c hc he => hnodup.1 (he ▸ hc)
  refine
    { ring := ?_, newRing := ?_, settled := ?_, mask := ?_, nodup := hnodup.2, mem := ?_
      queued := ?_, oldSame := ?_ }
  · rw [f.softPc]
    exact h.ring.dequeue
  · rw [f.settled, f.hardPc]
    exact h.newRing
  · rw [f.settled]
    exact h.settled
  · rw [f.hardPc, f.size]
    exact h.mask
  · intro c hc
    have hsame := hq c (hne c hc)
    rw [f.size, hsame.level, hsame.pending]
    exact h.mem c (mem_cons_of_mem d hc)
  · intro c hlt hlev hlarge hp
    have hcd : c ≠ d := by
      rintro rfl
      exact hd hlarge hp
    have hsame := hq c hcd
    rw [hsame.level] at hlev
    have hlarge := hsame.large hlarge
    rw [hsame.pending] at hp
    exact (mem_cons.1 (h.queued c (f.size ▸ hlt) hlev hlarge hp)).resolve_left hcd
  · rw [f.settled]
    intro hset a ha c hc
    have hsame := hq c (hne c (mem_append_left _ hc))
    rw [f.old hset] at ha
    rw [hsame.handler, hsame.arg]
    exact h.oldSame hset a ha c (mem_cons_of_mem d hc)

theorem sameBuffers_semaV (s : Shared) (l : SoftLevel) : SameBuffers s s.semaV l :=
  .of_softbuf rfl rfl rfl rfl id

theorem Shared.semaV_paid (s : Shared) (c : ℕ) : ¬ s.semaV.Unpaid c := fun h =>
  Nat.succ_ne_zero _ h.2

theorem LevelInv.rpendCall_zero (h : LevelInv s l t q q') (hs : SharedInv s)
    (hp : t.pc = .rpendCall) (hn : t.count = 0) :
    ∃ q, LevelInv s.semaV l { t with pc := .advance } q q' := by
  obtain ⟨hready, hgen, hunpaid⟩ := h.known_at hp
  obtain ⟨q1, rfl⟩ := List.head?_eq_some_iff.1 hready.head
  have hbufs := sameBuffers_semaV s l
  have hpend := hs.unpaid_pend hunpaid
  refine ⟨q1, ?_, hbufs.inLoop (hready.loop.congr rfl rfl rfl rfl), fun c hlev hlarge => ?_⟩
  · refine (h.queue_calm (by simp [hp])).consume hbufs (fun c hc => ?_) fun _ hpe => ?_
    · have hpaid : ¬ s.Unpaid c := fun hu => hc (hu.unique hunpaid)
      exact ⟨rfl, rfl, rfl, or_congr_right (iff_of_false (s.semaV_paid c) hpaid),
        fun hu => absurd hu hpaid, id⟩
    · rcases hpe with hpos | hu
      · exact absurd hpend hpos.ne'
      · exact s.semaV_paid _ hu
  · have hacc := h.account c hlev hlarge
    rw [ahead_calm (by rw [hp]; rfl)] at hacc
    rw [ahead_calm (by rfl), owed_eq (by simp), due_of_paid (s.semaV_paid c)]
    show s.expired c + 0 = s.handled c + (s.cpu.cyclics c).pend
    unfold owed at hacc
    by_cases hc : t.ndx = c
    · subst hc
      rw [if_pos ⟨hp, rfl⟩] at hacc
      omega
    · rw [if_neg fun hh => hc hh.2, due_of_paid fun hu => hc (hunpaid.unique hu)] at hacc
      exact hacc

/-! ## The compare and swap -/

/-- The store of a pending count. -/
def Shared.withPend (s : Shared) (ndx pend : ℕ) : Shared :=
  { s with cpu := s.cpu.setCyclic ndx { s.cpu.cyclics ndx with pend := pend } }

theorem Shared.withPend_self (s : Shared) (ndx pend : ℕ) :
    (s.withPend ndx pend).cpu.cyclics ndx = { s.cpu.cyclics ndx with pend := pend } :=
  update_self ..

variable {ndx : ℕ}

theorem Shared.withPend_of_ne (s : Shared) (pend : ℕ) (h : c ≠ ndx) :
    (s.withPend ndx pend).cpu.cyclics c = s.cpu.cyclics c :=
  update_of_ne h ..

theorem sameBuffers_withPend (s : Shared) (l : SoftLevel) (ndx pend : ℕ) :
    SameBuffers s (s.withPend ndx pend) l :=
  .of_softbuf rfl rfl rfl rfl id

theorem sameCounts_withPend (s : Shared) (pend : ℕ) (h : c ≠ ndx) :
    SameCounts s (s.withPend ndx pend) c := by
  have he := s.withPend_of_ne pend h
  have hpending : (s.withPend ndx pend).Pending c ↔ s.Pending c := by
    unfold Shared.Pending
    rw [he]
    exact Iff.rfl
  have hdue : (s.withPend ndx pend).due c = s.due c := by
    unfold Shared.due
    rw [he]
    rfl
  exact ⟨⟨by rw [he], by rw [he], by rw [he], hpending, id, id⟩, hdue, rfl, rfl⟩

/-- As long as something is pending, a soft interrupt does not see how much. -/
theorem sameCyclic_withPend (s : Shared) {pend : ℕ} (hpos : 0 < pend)
    (hpos' : 0 < (s.cpu.cyclics ndx).pend) (c : ℕ) : SameCyclic s (s.withPend ndx pend) c := by
  by_cases hc : c = ndx
  · subst hc
    have he := s.withPend_self c pend
    have hpending : (s.withPend c pend).Pending c ↔ s.Pending c := by
      unfold Shared.Pending
      rw [he]
      exact iff_of_true (.inl hpos) (.inl hpos')
    exact ⟨by rw [he], by rw [he], by rw [he], hpending, id, id⟩
  · exact (sameCounts_withPend s pend hc).toSameCyclic

section Cas

variable (h : LevelInv s l t q q') (hs : SharedInv s) (hp : t.pc = .cas)

include h hs hp

theorem LevelInv.cas_array : ∃ a, s.array t.cyclics = some a ∧
    ((a t.ndx).pend = t.pend → t.cyclics = s.gen ∧ (s.cpu.cyclics t.ndx).pend = t.pend) := by
  obtain ⟨hready, hpos⟩ := h.known_at hp
  obtain ⟨a, ha, -, -, hnow, hold⟩ := hready.loop.cyc.array_queued hs h.queue hready.mem
  refine ⟨a, ha, fun he => ?_⟩
  by_cases hgen : t.cyclics = s.gen
  · rw [hnow hgen] at he
    exact ⟨hgen, he⟩
  · omega

omit hs in
theorem LevelInv.cas_fails : LevelInv s l { t with pc := .reread } q q' := by
  obtain ⟨hready, -⟩ := h.known_at hp
  exact h.move_inFlight (hp ▸ rfl) rfl rfl (hready.setPc .reread)

section

variable (hpend : (s.cpu.cyclics t.ndx).pend = t.pend)
include hpend

theorem LevelInv.cas_account (hf : t'.pc.inFlight = false) (hr : t'.pc ≠ .rpendCall) :
    Account (s.withPend t.ndx (t.pend - 1)) l t' := by
  obtain ⟨-, hpos⟩ := h.known_at hp
  intro c hlev hlarge
  rw [ahead_calm hf, owed_eq hr]
  by_cases hc : c = t.ndx
  · subst hc
    rw [s.withPend_self] at hlev
    have hpaid : ¬ s.Unpaid t.ndx := by
      intro hu
      have := hs.unpaid_pend hu
      omega
    have hacc := h.account _ hlev hlarge
    unfold ahead at hacc
    rw [hp, if_pos ⟨rfl, rfl⟩, owed_eq (by simp [hp]), due_of_paid hpaid, hpend] at hacc
    rw [due_of_paid (s := s.withPend t.ndx (t.pend - 1)) hpaid, s.withPend_self]
    show s.expired _ + 0 = s.handled _ + (t.pend - 1)
    omega
  · have hsame := sameCounts_withPend s (t.pend - 1) hc
    rw [hsame.level] at hlev
    have hacc := h.account c hlev hlarge
    unfold ahead at hacc
    rw [if_neg fun hh => hc hh.2.symm, owed_eq (by simp [hp])] at hacc
    rwa [hsame.due]

theorem LevelInv.cas_again (htwo : 2 ≤ t.pend) :
    LevelInv (s.withPend t.ndx (t.pend - 1)) l { t with pc := .call } q q' := by
  obtain ⟨hready, -⟩ := h.known_at hp
  have hbufs := sameBuffers_withPend s l t.ndx (t.pend - 1)
  have hsame : ∀ c, SameCyclic s (s.withPend t.ndx (t.pend - 1)) c :=
    sameCyclic_withPend s (by omega) (by omega)
  refine ⟨?_, hbufs.ready (hready.setPc .call) (hsame t.ndx), h.cas_account hs hp hpend rfl (by simp)⟩
  exact (h.queue_calm (by simp [hp])).frame hbufs (fun c _ => hsame c) fun c _ => .inl (hsame c)

/-- The entry is done with. A count that is not below `2 ^ 31` is lost here. -/
theorem LevelInv.cas_last (hlast : ¬ (2 ≤ t.pend ∧ t.pend ≤ 2 ^ 31)) :
    ∃ q, LevelInv (s.withPend t.ndx (t.pend - 1)) l { t with pc := .advance } q q' := by
  obtain ⟨hready, hpos⟩ := h.known_at hp
  obtain ⟨q1, rfl⟩ := List.head?_eq_some_iff.1 hready.head
  have hbufs := sameBuffers_withPend s l t.ndx (t.pend - 1)
  refine ⟨q1, ?_, hbufs.inLoop (hready.loop.congr rfl rfl rfl rfl), h.cas_account hs hp hpend rfl (by simp)⟩
  refine (h.queue_calm (by simp [hp])).consume hbufs
    (fun c hc => (sameCounts_withPend s _ hc).toSameCyclic) fun hlarge hpe => ?_
  rcases hpe with hpos' | hu
  · have := hs.small t.ndx hlarge
    rw [s.withPend_self] at hpos'
    dsimp only at hpos'
    omega
  · have := hs.unpaid_pend hu
    omega

end

end Cas

/-! ## The buffers -/

theorem setSoftbuf_self (s : Shared) (l : SoftLevel) (sb : SoftBuf) :
    (s.setSoftbuf l sb).cpu.softbuf l = sb :=
  update_self ..

theorem softPc_setSoftbuf (s : Shared) (l : SoftLevel) (sb : SoftBuf) :
    (s.setSoftbuf l sb).softPc l = sb.buf sb.soft := by
  unfold Shared.softPc
  rw [setSoftbuf_self]

theorem hardPc_setSoftbuf (s : Shared) (l : SoftLevel) (sb : SoftBuf) :
    (s.setSoftbuf l sb).hardPc l = sb.buf sb.hard := by
  unfold Shared.hardPc
  rw [setSoftbuf_self]

theorem settled_setSoftbuf (s : Shared) (l : SoftLevel) (sb : SoftBuf) :
    (s.setSoftbuf l sb).Settled l ↔ sb.hard = sb.soft := by
  unfold Shared.Settled
  rw [setSoftbuf_self]

variable (sb : SoftBuf)

/-- The write of the consumer index. -/
def SoftBuf.setCons (b : Bool) (consndx : ℕ) : SoftBuf :=
  { sb with buf := update sb.buf b { sb.buf b with consndx := consndx } }

theorem SoftBuf.setCons_self (b : Bool) (n : ℕ) : (sb.setCons b n).buf b = { sb.buf b with consndx := n } :=
  update_self ..

theorem SoftBuf.setCons_of_ne {b b' : Bool} (n : ℕ) (h : b' ≠ b) : (sb.setCons b n).buf b' = sb.buf b' :=
  update_of_ne h ..

theorem SoftBuf.setCons_hard (b : Bool) (n : ℕ) : (sb.setCons b n).hard = sb.hard := rfl

theorem SoftBuf.setCons_sizemask (b b' : Bool) (n : ℕ) :
    ((sb.setCons b n).buf b').sizemask = (sb.buf b').sizemask := by
  by_cases hb : b' = b
  · subst hb
    rw [sb.setCons_self]
  · rw [sb.setCons_of_ne n hb]

theorem LevelInv.advance (h : LevelInv s l t q q') (hp : t.pc = .advance) :
    LevelInv (s.setSoftbuf l ((s.cpu.softbuf l).setCons t.soft (t.consndx + 1)))
      l { t with consndx := t.consndx + 1, pc := .test } q q' := by
  have hloop : InLoop s l t := h.known_at hp
  have hq : QueueInv s l q q' 1 := by
    have := h.queue
    rwa [hp] at this
  have hsoft : (s.setSoftbuf l ((s.cpu.softbuf l).setCons t.soft (t.consndx + 1))).softPc l =
      { s.softPc l with consndx := t.consndx + 1 } := by
    rw [softPc_setSoftbuf, ← hloop.pc]
    show ((s.cpu.softbuf l).setCons t.soft (t.consndx + 1)).buf (s.cpu.softbuf l).soft = _
    rw [← hloop.soft, SoftBuf.setCons_self]
  refine ⟨?_, ⟨?_, ?_, ?_, ?_⟩, fun c hlev hlarge => ?_⟩
  · refine
      { ring := ?_, newRing := ?_, settled := ?_, mask := ?_, nodup := hq.nodup, mem := hq.mem
        queued := hq.queued, oldSame := ?_ }
    · rw [hsoft, hloop.cons]
      exact hq.ring
    · rw [settled_setSoftbuf, hardPc_setSoftbuf]
      intro hns
      have hne : (s.cpu.softbuf l).hard ≠ t.soft := by rwa [hloop.soft]
      have hsame := (s.cpu.softbuf l).setCons_of_ne (t.consndx + 1) hne
      rw [SoftBuf.setCons_hard, hsame]
      exact hq.newRing hns
    · rw [settled_setSoftbuf]
      exact hq.settled
    · rw [hardPc_setSoftbuf, SoftBuf.setCons_sizemask]
      exact hq.mask
    · rw [settled_setSoftbuf]
      exact hq.oldSame
  · unfold CycOk
    rw [settled_setSoftbuf]
    exact hloop.cyc
  · rw [setSoftbuf_self]
    exact hloop.soft
  · rw [hsoft]
  · rw [hsoft]
    exact hloop.mask
  · have hacc := h.account c hlev hlarge
    rwa [ahead_calm (by rw [hp]; rfl), owed_eq (by simp [hp])] at hacc

theorem LevelInv.writeSoft (h : LevelInv s l t q q') (hp : t.pc = .writeSoft) :
    LevelInv (s.setSoftbuf l { s.cpu.softbuf l with soft := t.hard }) l
      { t with resized := true, pc := .top } q' [] := by
  obtain ⟨hns, rfl, hgen, hhard⟩ := h.known_at hp
  have hq := h.queue_calm (by simp [hp])
  have hset : (s.setSoftbuf l { s.cpu.softbuf l with soft := t.hard }).Settled l := by
    rw [settled_setSoftbuf]
    exact hhard.symm
  refine ⟨?_, Or.inl hgen, fun c hlev hlarge => ?_⟩
  · refine
      { ring := ?_, newRing := fun hns => absurd hset hns, settled := fun _ => rfl, mask := ?_
        nodup := ?_, mem := ?_, queued := ?_, oldSame := fun hns => absurd hset hns }
    · rw [softPc_setSoftbuf, hhard]
      exact hq.newRing hns
    · rw [hardPc_setSoftbuf]
      exact hq.mask
    · rw [append_nil]
      exact hq.nodup
    · rw [append_nil]
      exact hq.mem
    · rw [append_nil]
      exact hq.queued
  · have hacc := h.account c hlev hlarge
    rwa [ahead_calm (by rw [hp]; rfl), owed_eq (by simp [hp])] at hacc

end Osol.Cyc
