import Osol.Cyclic.SoftInv

/-!
# What the other threads leave alone

A level keeps its invariant when a step touches neither its buffers nor its cyclics.
-/

namespace Osol.Cyc

open List

variable {s s' : Shared} {l : SoftLevel} {t t' : Thread} {q q' : List ℕ} {c : ℕ}

/-- A soft interrupt does not see a difference at the cyclic `c`. -/
structure SameCyclic (s s' : Shared) (c : ℕ) : Prop where
  level : (s'.cpu.cyclics c).level = (s.cpu.cyclics c).level
  handler : (s'.cpu.cyclics c).handler = (s.cpu.cyclics c).handler
  arg : (s'.cpu.cyclics c).arg = (s.cpu.cyclics c).arg
  pending : s'.Pending c ↔ s.Pending c
  unpaid : s.Unpaid c → s'.Unpaid c
  large : s'.large c = false → s.large c = false

structure SameCounts (s s' : Shared) (c : ℕ) : Prop extends SameCyclic s s' c where
  due : s'.due c = s.due c
  expired : s'.expired c = s.expired c
  handled : s'.handled c = s.handled c

/-- A cyclic that was handled as often as it expired. -/
structure Fresh (s : Shared) (c : ℕ) : Prop where
  notPending : ¬ s.Pending c
  handled : s.expired c = s.handled c

theorem Shared.due_eq_zero (h : ¬ s.Pending c) : s.due c = 0 := by
  unfold Shared.due
  rw [if_neg fun hu => h (.inr hu)]
  exact Nat.eq_zero_of_not_pos fun hp => h (.inl hp)

structure SameBuffers (s s' : Shared) (l : SoftLevel) : Prop where
  soft : (s'.cpu.softbuf l).soft = (s.cpu.softbuf l).soft
  hard : (s'.cpu.softbuf l).hard = (s.cpu.softbuf l).hard
  softPc : s'.softPc l = s.softPc l
  hardPc : s'.hardPc l = s.hardPc l
  gen : s'.gen = s.gen
  size : s'.cpu.size = s.cpu.size
  old : ¬ s.Settled l → s'.old = s.old
  posted : s.cpu.posted l = true → s'.cpu.posted l = true

theorem SameBuffers.of_softbuf (hb : s'.cpu.softbuf l = s.cpu.softbuf l) (hg : s'.gen = s.gen)
    (hsz : s'.cpu.size = s.cpu.size) (ho : s'.old = s.old)
    (hp : s.cpu.posted l = true → s'.cpu.posted l = true) : SameBuffers s s' l where
  soft := by rw [hb]
  hard := by rw [hb]
  softPc := by unfold Shared.softPc; rw [hb]
  hardPc := by unfold Shared.hardPc; rw [hb]
  gen := hg
  size := hsz
  old := fun _ => ho
  posted := hp

namespace SameBuffers

variable (f : SameBuffers s s' l)

include f

theorem settled : s'.Settled l ↔ s.Settled l := by
  unfold Shared.Settled
  rw [f.soft, f.hard]

theorem cycOk (h : CycOk s l t) : CycOk s' l t := by
  unfold CycOk
  rwa [f.gen, f.settled]

theorem inLoop (h : InLoop s l t) : InLoop s' l t where
  cyc := f.cycOk h.cyc
  soft := by rw [f.soft]; exact h.soft
  cons := by rw [f.softPc]; exact h.cons
  mask := by rw [f.softPc]; exact h.mask

theorem woken (h : Woken s l q q') : Woken s' l q q' := fun hne => f.posted (h hne)

theorem ready (h : Ready s l t q) (hc : SameCyclic s s' t.ndx) : Ready s' l t q where
  loop := f.inLoop h.loop
  head := h.head
  handler := by rw [hc.handler]; exact h.handler
  arg := by rw [hc.arg]; exact h.arg

end SameBuffers

theorem Ready.mem (h : Ready s l t q) : t.ndx ∈ q := List.mem_of_mem_head? h.head

theorem QueueInv.frame {done : ℕ} (h : QueueInv s l q q' done) (f : SameBuffers s s' l)
    (hq : ∀ c ∈ q ++ q', SameCyclic s s' c)
    (hc : ∀ c, (s'.cpu.cyclics c).level = .soft l → SameCyclic s s' c ∨ ¬ s'.Pending c) :
    QueueInv s' l q q' done where
  ring := by rw [f.softPc]; exact h.ring
  newRing := by rw [f.settled, f.hardPc]; exact h.newRing
  settled := by rw [f.settled]; exact h.settled
  mask := by rw [f.hardPc, f.size]; exact h.mask
  nodup := h.nodup
  mem := by
    intro c hcq
    have hsame := hq c hcq
    rw [f.size, hsame.level, hsame.pending]
    exact h.mem c hcq
  queued := by
    intro c hlt hlev hlarge hp
    rcases hc c hlev with hsame | hnone
    · rw [hsame.level] at hlev
      have hlarge := hsame.large hlarge
      exact h.queued c (f.size ▸ hlt) hlev hlarge (hsame.pending.1 hp)
    · exact absurd hp hnone
  oldSame := by
    rw [f.settled]
    intro hset a ha d hd
    have hsame := hq d (mem_append_left _ hd)
    rw [f.old hset] at ha
    rw [hsame.handler, hsame.arg]
    exact h.oldSame hset a ha d hd

/-- What a soft interrupt at `pc` knows is still so, with the queues `p` and `p'`. -/
structure Carried (s s' : Shared) (l : SoftLevel) (t : Thread) (q q' p p' : List ℕ) (pc : SoftPc) :
    Prop where
  cyc : CycOk s l t → CycOk s' l t
  soft : (s'.cpu.softbuf l).soft = (s.cpu.softbuf l).soft
  cons : (s'.softPc l).consndx = (s.softPc l).consndx
  mask : (s'.softPc l).sizemask = (s.softPc l).sizemask
  cyclic : ∀ c ∈ q, (s'.cpu.cyclics c).handler = (s.cpu.cyclics c).handler ∧
    (s'.cpu.cyclics c).arg = (s.cpu.cyclics c).arg
  head : ∀ c, q.head? = some c → p.head? = some c
  unpaid : CycOk s l t → t.ndx ∈ q → (t.cyclics = s.gen → s.Unpaid t.ndx) →
    t.cyclics = s'.gen → s'.Unpaid t.ndx
  paying : t.ndx ∈ q → t.cyclics = s.gen → s.Unpaid t.ndx → t.cyclics = s'.gen ∧ s'.Unpaid t.ndx
  woken : Woken s l q q' → Woken s' l p p'
  drained : pc = .checkHard → (¬ s.Settled l → q = []) → ¬ s'.Settled l → p = []
  posted : (s.Settled l → q ≠ [] → s.cpu.posted l = true) → s'.Settled l → p ≠ [] →
    s'.cpu.posted l = true
  switching : ¬ s.Settled l → q = [] → ¬ s'.Settled l ∧ p = [] ∧ s'.gen = s.gen ∧
    (s'.cpu.softbuf l).hard = (s.cpu.softbuf l).hard

variable {pc : SoftPc}

theorem Known.carry {p p' : List ℕ} (h : Known s l t q q' pc)
    (f : Carried s s' l t q q' p p' pc) : Known s' l t p p' pc := by
  have hloop : InLoop s l t → InLoop s' l t := fun hl =>
    ⟨f.cyc hl.cyc, hl.soft.trans f.soft.symm, hl.cons.trans f.cons.symm, hl.mask.trans f.mask.symm⟩
  have hready : Ready s l t q → Ready s' l t p := fun hr =>
    ⟨hloop hr.loop, f.head _ hr.head, hr.handler.trans (f.cyclic _ hr.mem).1.symm,
      hr.arg.trans (f.cyclic _ hr.mem).2.symm⟩
  have hrpend : Ready s l t q ∧ t.cyclics = s.gen ∧ s.Unpaid t.ndx →
      Ready s' l t p ∧ t.cyclics = s'.gen ∧ s'.Unpaid t.ndx := fun hr =>
    ⟨hready hr.1, f.paying hr.1.mem hr.2.1 hr.2.2⟩
  cases pc <;> dsimp only [Known] at h ⊢
  case idle => exact f.woken h
  case start => exact h
  case top => exact f.cyc h
  case readCons => exact ⟨f.cyc h.1, h.2.trans f.soft.symm⟩
  case readMask => exact ⟨f.cyc h.1, h.2.1.trans f.soft.symm, h.2.2.trans f.cons.symm⟩
  case test => exact hloop h
  case readNdx =>
    obtain ⟨c, q1, rfl⟩ := exists_cons_of_ne_nil h.2
    refine ⟨hloop h.1, fun hp => ?_⟩
    have := f.head c rfl
    rw [hp] at this
    cases this
  case readHandler => exact ⟨hloop h.1, f.head _ h.2⟩
  case readArg =>
    have hmem := List.mem_of_mem_head? h.2.1
    exact ⟨hloop h.1, f.head _ h.2.1, h.2.2.trans (f.cyclic _ hmem).1.symm⟩
  case call => exact hready h
  case reread => exact hready h
  case checkState => exact ⟨hready h.1, f.unpaid h.1.loop.cyc h.1.mem h.2⟩
  case reloadCyc => exact hready h
  case reloadNdx => exact hready h
  case cas => exact ⟨hready h.1, h.2⟩
  case rpendHandler => exact hrpend h
  case rpendArg => exact hrpend h
  case rpendRead => exact hrpend h
  case rpendCall => exact hrpend h
  case advance => exact hloop h
  case checkHard => exact ⟨f.cyc h.1, h.2.1.trans f.soft.symm, f.drained rfl h.2.2.1, f.posted h.2.2.2⟩
  case switchCyc =>
    obtain ⟨hns, hp, -⟩ := f.switching h.1 h.2
    exact ⟨hns, hp⟩
  case readHard =>
    obtain ⟨hns, hp, hgen, -⟩ := f.switching h.1 h.2.1
    exact ⟨hns, hp, h.2.2.trans hgen.symm⟩
  case writeSoft =>
    obtain ⟨hns, hp, hgen, hhard⟩ := f.switching h.1 h.2.1
    exact ⟨hns, hp, h.2.2.1.trans hgen.symm, h.2.2.2.trans hhard.symm⟩
  case readLev => exact ⟨h.1, f.woken h.2⟩
  case casLev => exact ⟨h.1, f.woken h.2⟩
  case post => exact f.woken h

theorem Known.frame (h : Known s l t q q' pc) (f : SameBuffers s s' l)
    (hq : ∀ c ∈ q ++ q', SameCyclic s s' c) : Known s' l t q q' pc := by
  have hmem : ∀ {c}, c ∈ q → SameCyclic s s' c := fun hc => hq _ (mem_append_left _ hc)
  refine h.carry
    { cyc := f.cycOk
      soft := f.soft
      cons := by rw [f.softPc]
      mask := by rw [f.softPc]
      cyclic := fun c hc => ⟨(hmem hc).handler, (hmem hc).arg⟩
      head := fun _ => id
      unpaid := fun _ hc hu hg => (hmem hc).unpaid (hu (hg.trans f.gen))
      paying := fun hc hg hu => ⟨hg.trans f.gen.symm, (hmem hc).unpaid hu⟩
      woken := f.woken
      drained := fun _ hd => by rw [f.settled]; exact hd
      posted := fun hp hs hne => f.posted (hp (f.settled.1 hs) hne)
      switching := fun hns hq => ⟨f.settled.not.2 hns, hq, f.gen, f.hard⟩ }

theorem Known.mem_of_inFlight (h : Known s l t q q' pc)
    (hf : pc.inFlight = true ∨ pc = .rpendCall) : t.ndx ∈ q := by
  cases pc
  case reread => exact h.mem
  case checkState => exact h.1.mem
  case reloadCyc => exact h.mem
  case reloadNdx => exact h.mem
  case cas => exact h.1.mem
  case rpendHandler => exact h.1.mem
  case rpendArg => exact h.1.mem
  case rpendRead => exact h.1.mem
  case rpendCall => exact h.1.mem
  all_goals simp [SoftPc.inFlight] at hf

theorem Account.frame (h : Account s l t) (hk : Known s l t q q' t.pc)
    (hq : ∀ c ∈ q ++ q', SameCounts s s' c)
    (hc : ∀ c, (s'.cpu.cyclics c).level = .soft l → SameCounts s s' c ∨ Fresh s' c) :
    Account s' l t := by
  have hsame : ∀ c, SameCounts s s' c → (s'.cpu.cyclics c).level = .soft l →
      s'.large c = false → s'.expired c + ahead t c = s'.handled c + owed s' t c := by
    intro c hsame hlev hlarge
    rw [hsame.level] at hlev
    have hlarge := hsame.large hlarge
    have hacc := h c hlev hlarge
    unfold owed at hacc ⊢
    rwa [hsame.expired, hsame.handled, hsame.due]
  intro c hlev hlarge
  rcases hc c hlev with hs | hfresh
  · exact hsame c hs hlev hlarge
  by_cases hcur : (t.pc.inFlight = true ∨ t.pc = .rpendCall) ∧ t.ndx = c
  · have hmem := hk.mem_of_inFlight hcur.1
    rw [hcur.2] at hmem
    exact hsame c (hq c (mem_append_left _ hmem)) hlev hlarge
  · unfold ahead owed
    rw [if_neg fun hh => hcur ⟨.inl hh.1, hh.2⟩, if_neg fun hh => hcur ⟨.inr hh.1, hh.2⟩,
      Shared.due_eq_zero hfresh.notPending, hfresh.handled]

theorem LevelInv.frame (h : LevelInv s l t q q') (f : SameBuffers s s' l)
    (hq : ∀ c ∈ q ++ q', SameCounts s s' c)
    (hc : ∀ c, (s'.cpu.cyclics c).level = .soft l → SameCounts s s' c ∨ Fresh s' c) :
    LevelInv s' l t q q' :=
  ⟨h.queue.frame f (fun c h => (hq c h).toSameCyclic)
      fun c h => (hc c h).imp (·.toSameCyclic) (·.notPending),
    h.known.frame f fun c h => (hq c h).toSameCyclic, h.account.frame h.known hq hc⟩

theorem LevelInv.frame_all (h : LevelInv s l t q q') (f : SameBuffers s s' l)
    (hc : ∀ c, SameCounts s s' c) : LevelInv s' l t q q' :=
  h.frame f (fun c _ => hc c) fun c _ => .inl (hc c)

end Osol.Cyc
