import Osol.Cyclic.SoftEvents

/-!
# The thread that holds `cpu_lock`

It adds and removes cyclics and resizes the arrays. In a resize it waits until both levels have
switched their buffers, in a removal until the calls that were pending are made.
-/

namespace Osol.Cyc

open Osol.Lib Function Shared

variable {s s' : Shared} {l : SoftLevel} {t : Thread} {q q' : List ℕ} {c ndx : ℕ}

/-! ## `cyclic_add` -/

/-- Only the cyclics, the heap and the back end change. -/
structure SameRest (cpu cpu' : CycCpu) : Prop where
  size : cpu'.size = cpu.size
  state : cpu'.state = cpu.state
  softbuf : cpu'.softbuf = cpu.softbuf
  modifyLevels : cpu'.modifyLevels = cpu.modifyLevels
  modifyWait : cpu'.modifyWait = cpu.modifyWait
  posted : cpu'.posted = cpu.posted

theorem insert_frame (cpu : CycCpu) (c : Cyclic) :
    SameRest cpu (insert cpu c) ∧ (insert cpu c).rpend = cpu.rpend ∧
      (insert cpu c).cyclics = update cpu.cyclics (cpu.heap cpu.nelems) c := by
  unfold insert
  dsimp only
  split_ifs <;> exact ⟨⟨rfl, rfl, rfl, rfl, rfl, rfl⟩, rfl, rfl⟩

theorem heapRemove_frame (cpu : CycCpu) (ndx i : ℕ) :
    SameRest cpu (heapRemove cpu ndx i) ∧ (heapRemove cpu ndx i).rpend = cpu.rpend ∧
      (heapRemove cpu ndx i).cyclics = cpu.cyclics := by
  unfold heapRemove refill
  dsimp only
  split_ifs <;> exact ⟨⟨rfl, rfl, rfl, rfl, rfl, rfl⟩, rfl, rfl⟩

theorem SharedInv.next_free (hs : SharedInv s) (hlt : s.cpu.nelems < s.cpu.size) :
    s.cpu.heap s.cpu.nelems < s.cpu.size ∧ (s.cpu.cyclics (s.cpu.heap s.cpu.nelems)).free = true := by
  have hndx := hs.slots.heap_lt hlt
  refine ⟨hndx, Bool.eq_true_of_not_eq_false fun hf => ?_⟩
  obtain ⟨i, hi, he⟩ := (hs.slots.used _ hndx).1 hf
  have := hs.slots.heap_inj (by omega) hlt he
  omega

section Add

variable {d : Cyclic}

/-- The cyclic `d` is added; its counts begin. -/
def Shared.add (s : Shared) (d : Cyclic) : Shared :=
  { s with
    cpu := insert s.cpu d
    expired := update s.expired (s.cpu.heap s.cpu.nelems) 0
    handled := update s.handled (s.cpu.heap s.cpu.nelems) 0
    large := update s.large (s.cpu.heap s.cpu.nelems) false }

theorem add_cyclics_self (s : Shared) (d : Cyclic) :
    (s.add d).cpu.cyclics (s.cpu.heap s.cpu.nelems) = d := by
  show (insert s.cpu d).cyclics _ = d
  rw [(insert_frame s.cpu d).2.2, update_self]

theorem add_cyclics_of_ne (s : Shared) (d : Cyclic) (h : c ≠ s.cpu.heap s.cpu.nelems) :
    (s.add d).cpu.cyclics c = s.cpu.cyclics c := by
  show (insert s.cpu d).cyclics _ = _
  rw [(insert_frame s.cpu d).2.2, update_of_ne h]

theorem add_unpaid (s : Shared) (d : Cyclic) (c : ℕ) : (s.add d).Unpaid c ↔ s.Unpaid c := by
  show s.modifier = _ ∧ (insert s.cpu d).modifyWait = 0 ↔ _
  rw [(insert_frame s.cpu d).1.modifyWait]
  exact Iff.rfl

theorem SharedInv.add (hs : SharedInv s) (hm : s.modifier = .idle)
    (hlt : s.cpu.nelems < s.cpu.size) (hf : d.free = false) (hint : 0 < d.interval)
    (hp : d.pend = 0) : SharedInv (s.add d) := by
  obtain ⟨hrest, hrpend, -⟩ := insert_frame s.cpu d
  obtain ⟨hndx, -⟩ := hs.next_free hlt
  have hok : Slots (s.add d).cpu ∧ ByExpire (s.add d).cpu := insert_ok hs.slots hs.byExpire hlt hf hint
  have hcyc : ∀ c, (s.add d).cpu.cyclics c = d ∧ c = s.cpu.heap s.cpu.nelems ∨
      (s.add d).cpu.cyclics c = s.cpu.cyclics c ∧ c ≠ s.cpu.heap s.cpu.nelems := by
    intro c
    by_cases hc : c = s.cpu.heap s.cpu.nelems
    · exact .inl ⟨hc ▸ add_cyclics_self s d, hc⟩
    · exact .inr ⟨add_cyclics_of_ne s d hc, hc⟩
  have hset : ∀ l, (s.add d).Settled l ↔ s.Settled l := by
    intro l
    show ((insert s.cpu d).softbuf l).hard = ((insert s.cpu d).softbuf l).soft ↔ _
    rw [hrest.softbuf]
    exact Iff.rfl
  refine
    { slots := hok.1
      byExpire := hok.2
      pow := ?_
      freePend := fun c hc => ?_
      bound := fun c => ?_
      small := fun c hc => ?_
      state := hrest.state.trans hs.state
      settled := fun hne l => (hset l).2 (hs.settled hne l)
      old := fun he => nomatch hm.symm.trans he
      ready := fun he => nomatch hm.symm.trans he
      waiting := fun _ he => nomatch hm.symm.trans he
      rpend := fun h1 h2 => hrpend.trans (hs.rpend h1 h2)
      sema := fun h1 h2 => hrest.modifyWait.trans (hs.sema h1 h2)
      semaRemove := fun _ he => nomatch hm.symm.trans he
      semaExpand := fun he => nomatch hm.symm.trans he
      beyond := fun c hc => ?_ }
  · show ∃ k, (insert s.cpu d).size = 2 ^ k
    rw [hrest.size]
    exact hs.pow
  · rcases hcyc c with ⟨he, -⟩ | ⟨he, -⟩ <;> rw [he] at hc ⊢
    · rw [hf] at hc
      cases hc
    · exact hs.freePend c hc
  · rcases hcyc c with ⟨he, -⟩ | ⟨he, -⟩ <;> rw [he]
    · rw [hp]
      decide
    · exact hs.bound c
  · rcases hcyc c with ⟨he, -⟩ | ⟨he, hne⟩ <;> rw [he]
    · rw [hp]
      decide
    · have hc : update s.large (s.cpu.heap s.cpu.nelems) false c = false := hc
      rw [update_of_ne hne] at hc
      exact hs.small c hc
  have hc : s.cpu.size ≤ c := by rwa [← hrest.size]
  have hne : c ≠ s.cpu.heap s.cpu.nelems := by omega
  show update s.expired _ 0 c = 0 ∧ update s.handled _ 0 c = 0
  rw [update_of_ne hne, update_of_ne hne]
  exact hs.beyond c hc

theorem sameCounts_add (s : Shared) (d : Cyclic) (hc : c ≠ s.cpu.heap s.cpu.nelems) :
    SameCounts s (s.add d) c := by
  have he := add_cyclics_of_ne s d hc
  have hu := add_unpaid s d c
  have hpending : (s.add d).Pending c ↔ s.Pending c := by
    unfold Shared.Pending
    rw [he, hu]
  have hdue : (s.add d).due c = s.due c := by
    by_cases hup : s.Unpaid c
    · rw [(hu.2 hup).due, hup.due]
      exact (insert_frame s.cpu d).2.1
    · rw [due_of_paid hup, due_of_paid (hu.not.2 hup), he]
  refine ⟨⟨by rw [he], by rw [he], by rw [he], hpending, hu.2, fun hl => ?_⟩, hdue,
    update_of_ne hc .., update_of_ne hc ..⟩
  rw [← hl]
  exact (update_of_ne hc ..).symm

theorem LevelInv.add (h : LevelInv s l t q q') (hs : SharedInv s) (hm : s.modifier = .idle)
    (hlt : s.cpu.nelems < s.cpu.size) (hp : d.pend = 0) : LevelInv (s.add d) l t q q' := by
  obtain ⟨hrest, -, -⟩ := insert_frame s.cpu d
  obtain ⟨-, hfree⟩ := hs.next_free hlt
  have hpaid : ∀ c, ¬ s.Unpaid c := fun c hu => nomatch hm.symm.trans hu.1
  have hne : ∀ c ∈ q ++ q', c ≠ s.cpu.heap s.cpu.nelems := by
    rintro c hc rfl
    rcases (h.queue.mem _ hc).2.2 with hpos | hu
    · have := hs.freePend _ hfree
      omega
    · exact hpaid _ hu
  have hbufs : SameBuffers s (s.add d) l :=
    .of_softbuf (congrFun hrest.softbuf l) rfl hrest.size rfl fun hp => (congrFun hrest.posted l).trans hp
  refine h.frame hbufs (fun c hc => sameCounts_add s d (hne c hc)) fun c _ => ?_
  by_cases hc : c = s.cpu.heap s.cpu.nelems
  · right
    subst hc
    refine ⟨fun hpe => ?_, ?_⟩
    · rcases hpe with hpos | hu
      · rw [add_cyclics_self, hp] at hpos
        exact Nat.lt_irrefl 0 hpos
      · exact hpaid _ ((add_unpaid s d _).1 hu)
    · show update s.expired _ 0 _ = update s.handled _ 0 _
      rw [update_self, update_self]
  · exact .inl (sameCounts_add s d hc)

end Add

/-! ## `cyclic_expand` -/

/-- `cyclic_expand_xcall`, with the old array kept. -/
def Shared.expand (s : Shared) : Shared :=
  { s with
    cpu := cyclicExpandXcall s.cpu
    gen := s.gen + 1
    old := some fun i => { s.cpu.cyclics i with pend := 0 }
    modifier := .expandWait }

theorem expand_paid (s : Shared) (c : ℕ) : ¬ s.expand.Unpaid c := fun hu => nomatch hu.1

theorem expand_unsettled (h : s.Settled l) : ¬ s.expand.Settled l := by
  show ¬ (!(s.cpu.softbuf l).hard) = (s.cpu.softbuf l).soft
  rw [← show (s.cpu.softbuf l).hard = _ from h]
  simp

theorem SharedInv.expand (hs : SharedInv s) (hm : s.modifier = .expandReady) : SharedInv s.expand := by
  obtain ⟨hlevels, hposts, -⟩ := hs.ready hm
  have hcyc : ∀ c, s.expand.cpu.cyclics c =
    if c < s.cpu.size then s.cpu.cyclics c else freeCyclic := fun _ => rfl
  refine
    { slots := hs.slots.expand
      byExpire := expand_byExpire hs.slots hs.byExpire
      pow := ?_
      freePend := fun c hc => ?_
      bound := fun c => ?_
      small := fun c hc => ?_
      state := hs.state.trans (by rw [hm]; rfl)
      settled := fun hne => absurd rfl hne
      old := fun _ => ⟨_, rfl, fun _ => rfl⟩
      ready := nofun
      waiting := nofun
      rpend := fun _ _ => hs.rpend (by simp [hm]) (by simp [hm])
      sema := fun hne => absurd rfl hne
      semaRemove := nofun
      semaExpand := fun _ => ?_
      beyond := fun c hc => hs.beyond c ?_ }
  · obtain ⟨k, hk⟩ := hs.pow
    refine ⟨k + 1, ?_⟩
    show 2 * s.cpu.size = _
    rw [hk, Nat.pow_succ']
  · rw [hcyc] at hc ⊢
    split_ifs at hc ⊢
    · exact hs.freePend c hc
    · rfl
  · rw [hcyc]
    split_ifs
    · exact hs.bound c
    · decide
  · rw [hcyc]
    split_ifs
    · exact hs.small c hc
    · decide
  · show s.cpu.modifyWait = s.posts
    rw [hposts]
    exact hs.sema (by simp [hm]) (by simp [hm])
  · have hc : 2 * s.cpu.size ≤ c := hc
    omega

theorem sameCounts_expand (hpaid : ¬ s.Unpaid c) (hc : c < s.cpu.size) : SameCounts s s.expand c := by
  have he : s.expand.cpu.cyclics c = s.cpu.cyclics c := if_pos hc
  have hpending : s.expand.Pending c ↔ s.Pending c := by
    unfold Shared.Pending
    rw [he]
    exact or_congr_right (iff_of_false (expand_paid s c) hpaid)
  have hdue : s.expand.due c = s.due c := by rw [due_of_paid hpaid, due_of_paid (expand_paid s c), he]
  exact ⟨⟨by rw [he], by rw [he], by rw [he], hpending, fun hu => absurd hu hpaid, id⟩, hdue, rfl, rfl⟩

section Expand

variable (hs : SharedInv s) (hm : s.modifier = .expandReady)

include hs hm

theorem SharedInv.ready_settled (l : SoftLevel) : s.Settled l := hs.settled (by simp [hm]) l

omit hs in
theorem ready_paid (c : ℕ) : ¬ s.Unpaid c := fun hu => nomatch hm.symm.trans hu.1

theorem QueueInv.expand {done : ℕ} (h : QueueInv s l q q' done) : QueueInv s.expand l q [] done := by
  have hset := hs.ready_settled hm l
  obtain ⟨hprod, hcons, hmask⟩ := (hs.ready hm).2.2 l
  obtain rfl := h.settled hset
  have hsame : ∀ {c}, c < s.cpu.size → SameCounts s s.expand c :=
    fun hc => sameCounts_expand (ready_paid hm _) hc
  refine
    { ring := h.ring
      newRing := fun _ => ?_
      settled := fun _ => rfl
      mask := ?_
      nodup := h.nodup
      mem := fun c hc => ?_
      queued := fun c _ hlev hlarge hp => ?_
      oldSame := fun _ a ha c hc => ?_ }
  · show RingHolds _ _ ((s.cpu.softbuf l).buf (!(s.cpu.softbuf l).hard)).consndx
      ((s.cpu.softbuf l).buf (!(s.cpu.softbuf l).hard)).prodndx []
    rw [hprod, hcons]
    exact .nil ..
  · show ((s.cpu.softbuf l).buf (!(s.cpu.softbuf l).hard)).sizemask + 1 = 2 * s.cpu.size
    obtain ⟨k, hk⟩ := hs.pow
    have := Nat.two_pow_pos k
    omega
  · obtain ⟨hlt, hlev, hp⟩ := h.mem c hc
    have := hsame hlt
    rw [this.level, this.pending]
    refine ⟨?_, hlev, hp⟩
    show c < 2 * s.cpu.size
    omega
  · by_cases hlt : c < s.cpu.size
    · have := hsame hlt
      rw [this.level] at hlev
      exact h.queued c hlt hlev hlarge (this.pending.1 hp)
    · rcases hp with hpos | hu
      · rw [show s.expand.cpu.cyclics c = freeCyclic from if_neg hlt] at hpos
        cases hpos
      · exact absurd hu (expand_paid s c)
  · cases ha
    have := hsame (h.mem c (List.mem_append_left _ hc)).1
    exact ⟨this.handler.symm, this.arg.symm⟩

/-- The buffers are switched at a moment when the soft interrupt has not left its loop with an
entry behind. -/
theorem LevelInv.expand (h : LevelInv s l t q q')
    (hquiet : t.pc = .checkHard → (s.softPc l).consndx = (s.softPc l).prodndx) :
    LevelInv s.expand l t q [] := by
  have hset := hs.ready_settled hm l
  have hns := expand_unsettled hset
  have hq' := h.queue.settled hset
  have hsame : ∀ {c}, c < s.cpu.size → SameCounts s s.expand c :=
    fun hc => sameCounts_expand (ready_paid hm _) hc
  have hlt : ∀ {c}, c ∈ q ++ q' → c < s.cpu.size := fun hc => (h.queue.mem _ hc).1
  have hgen : CycOk s l t → t.cyclics = s.gen := fun hc => hc.resolve_right fun ho => ho.2 hset
  have hposted : ∀ l, s.cpu.posted l = true → s.expand.cpu.posted l = true := by
    intro l hp
    cases l with
    | low => exact hp
    | lock => rfl
  refine ⟨h.queue.expand hs hm, ?_, ?_⟩
  · refine h.known.carry
      { cyc := fun hc => Or.inr ⟨by rw [hgen hc]; rfl, hns⟩
        soft := rfl
        cons := rfl
        mask := rfl
        cyclic := fun c hc => ?_
        head := fun _ => id
        unpaid := fun hc _ _ he => ?_
        paying := fun _ _ hu => absurd hu (ready_paid hm _)
        woken := fun hw hne => hposted l (hw (by rw [hq']; exact hne))
        drained := fun hp _ _ => ?_
        posted := fun _ hs => absurd hs hns
        switching := fun hn => absurd hset hn }
    · have := hsame (hlt (List.mem_append_left _ hc))
      exact ⟨this.handler, this.arg⟩
    · have := hgen hc
      have : t.cyclics = s.gen + 1 := he
      omega
    · have hq := h.queue_calm (by simp [hp])
      exact hq.ring.eq_nil_iff.2 (hquiet hp)
  · refine h.account.frame h.known (fun c hc => hsame (hlt hc)) fun c _ => ?_
    by_cases hc : c < s.cpu.size
    · exact .inl (hsame hc)
    right
    refine ⟨fun hpe => ?_, ?_⟩
    · rcases hpe with hpos | hu
      · rw [show s.expand.cpu.cyclics c = freeCyclic from if_neg hc] at hpos
        cases hpos
      · exact expand_paid s c hu
    · have := hs.beyond c (by omega)
      exact this.1.trans this.2.symm

end Expand

/-! ## The other steps -/

/-- The thread goes on to `m`, with nothing to wait for. -/
def Shared.goOn (s : Shared) (m : Modifier) (rpend : ℕ) : Shared :=
  { s with cpu := { s.cpu with rpend := rpend, state := m.state }, modifier := m }

/-- No soft interrupt is waited for. -/
def Modifier.Free (m : Modifier) : Prop := m ≠ .expandWait ∧ ∀ c, m ≠ .removeWait c

theorem Modifier.Free.paid (h : s.modifier.Free) (c : ℕ) : ¬ s.Unpaid c := fun hu => h.2 c hu.1

theorem SharedInv.goOn (hs : SharedInv s) (hf : s.modifier.Free) {m : Modifier} {rpend : ℕ}
    (hm : m.Free) (hr : m ≠ .expandReady) (hz : rpend = 0) : SharedInv (s.goOn m rpend) :=
  { hs with
    slots := hs.slots.congr rfl rfl rfl rfl
    state := rfl
    settled := fun _ => hs.settled hf.1
    old := fun he => absurd he hm.1
    ready := fun he => absurd he hr
    waiting := fun c he => absurd he (hm.2 c)
    rpend := fun _ _ => hz
    sema := fun _ _ => hs.sema hf.1 hf.2
    semaRemove := fun c he => absurd he (hm.2 c)
    semaExpand := fun he => absurd he hm.1 }

theorem LevelInv.goOn (h : LevelInv s l t q q') (hf : s.modifier.Free) {m : Modifier} {rpend : ℕ}
    (hm : m.Free) : LevelInv (s.goOn m rpend) l t q q' :=
  h.frame_all (.of_softbuf rfl rfl rfl rfl id) fun c =>
    sameCounts_of_eq rfl
      (iff_of_false (Modifier.Free.paid hm c) (hf.paid c))
      (fun hu => absurd hu (hf.paid c)) rfl rfl rfl

/-- The new buffers are set up. -/
def Shared.setup (s : Shared) : Shared :=
  { s with
    cpu := { s.cpu with softbuf := newBuffers s.cpu, modifyLevels := 0 }
    modifier := .expandReady
    posts := 0 }

theorem newBuffers_hard (cpu : CycCpu) (l : SoftLevel) (b : Bool) (h : b = (cpu.softbuf l).hard) :
    (newBuffers cpu l).buf b = (cpu.softbuf l).buf b :=
  update_of_ne (by simp [h]) ..

theorem SharedInv.setup (hs : SharedInv s) (hm : s.modifier = .expanding) : SharedInv s.setup := by
  have hset := hs.settled (by simp [hm])
  refine { hs with
    slots := hs.slots.congr rfl rfl rfl rfl
    state := hs.state.trans (by rw [hm]; rfl)
    settled := fun _ => hset
    old := nofun
    ready := fun _ => ⟨rfl, rfl, fun l => ?_⟩
    waiting := nofun
    rpend := fun _ _ => hs.rpend (by simp [hm]) (by simp [hm])
    sema := fun _ _ => hs.sema (by simp [hm]) (by simp [hm])
    semaRemove := nofun
    semaExpand := nofun }
  have hself : (newBuffers s.cpu l).buf (!(s.cpu.softbuf l).hard) =
      { (s.cpu.softbuf l).buf (!(s.cpu.softbuf l).hard) with
        prodndx := 0, consndx := 0, sizemask := 2 * s.cpu.size - 1 } := update_self ..
  show ((newBuffers s.cpu l).buf (!(s.cpu.softbuf l).hard)).prodndx = 0 ∧
    ((newBuffers s.cpu l).buf (!(s.cpu.softbuf l).hard)).consndx = 0 ∧
    ((newBuffers s.cpu l).buf (!(s.cpu.softbuf l).hard)).sizemask = 2 * s.cpu.size - 1
  rw [hself]
  exact ⟨rfl, rfl, rfl⟩

theorem LevelInv.setup (h : LevelInv s l t q q') (hs : SharedInv s) (hm : s.modifier = .expanding) :
    LevelInv s.setup l t q q' := by
  have hset := hs.settled (by simp [hm]) l
  have hbufs : SameBuffers s s.setup l :=
    { soft := rfl
      hard := rfl
      softPc := newBuffers_hard _ _ _ hset.symm
      hardPc := newBuffers_hard _ _ _ rfl
      gen := rfl
      size := rfl
      old := fun _ => rfl
      posted := id }
  have hpaid : ∀ c, ¬ s.Unpaid c := fun c hu => nomatch hm.symm.trans hu.1
  exact h.frame_all hbufs fun c => sameCounts_of_eq rfl
    (iff_of_false (fun hu => nomatch hu.1) (hpaid c)) (fun hu => absurd hu (hpaid c)) rfl rfl rfl

/-- The thread is woken: it takes the semaphore and goes on. -/
def Shared.wake (s : Shared) (m : Modifier) (st : CycState) (old : Option (ℕ → Cyclic)) : Shared :=
  { s with
    cpu := { s.cpu with modifyWait := s.cpu.modifyWait - 1, state := st }
    old := old
    modifier := m }

theorem SharedInv.expandEnd (hs : SharedInv s) (hm : s.modifier = .expandWait)
    (hset : ∀ l, s.Settled l) (hone : s.posts = 1) :
    SharedInv (s.wake .idle .online none) :=
  { hs with
    slots := hs.slots.congr rfl rfl rfl rfl
    state := rfl
    settled := fun _ => hset
    old := nofun
    ready := nofun
    waiting := nofun
    rpend := fun _ _ => hs.rpend (by simp [hm]) (by simp [hm])
    sema := fun _ _ => by
      show s.cpu.modifyWait - 1 = 0
      rw [hs.semaExpand hm, hone]
    semaRemove := nofun
    semaExpand := nofun }

theorem LevelInv.expandEnd (h : LevelInv s l t q q') (hm : s.modifier = .expandWait)
    (hset : s.Settled l) : LevelInv (s.wake .idle .online none) l t q q' := by
  have hbufs : SameBuffers s (s.wake .idle .online none) l :=
    ⟨rfl, rfl, rfl, rfl, rfl, rfl, fun hns => absurd hset hns, id⟩
  have hpaid : ∀ c, ¬ s.Unpaid c := fun c hu => nomatch hm.symm.trans hu.1
  exact h.frame_all hbufs fun c => sameCounts_of_eq rfl
    (iff_of_false (fun hu => nomatch hu.1) (hpaid c)) (fun hu => absurd hu (hpaid c)) rfl rfl rfl

theorem SharedInv.removeWake (hs : SharedInv s) (hm : s.modifier = .removeWait c) :
    SharedInv (s.wake .removeEnd s.cpu.state s.old) :=
  { hs with
    slots := hs.slots.congr rfl rfl rfl rfl
    state := hs.state.trans (by rw [hm]; rfl)
    settled := fun _ => hs.settled (by simp [hm])
    old := nofun
    ready := nofun
    waiting := nofun
    rpend := fun _ hne => absurd rfl hne
    sema := fun _ _ => by
      show s.cpu.modifyWait - 1 = 0
      have := hs.semaRemove c hm
      omega
    semaRemove := nofun
    semaExpand := nofun }

theorem LevelInv.removeWake (h : LevelInv s l t q q') (hne : s.cpu.modifyWait ≠ 0) :
    LevelInv (s.wake .removeEnd s.cpu.state s.old) l t q q' :=
  h.frame_all (.of_softbuf rfl rfl rfl rfl id) fun _ => sameCounts_of_eq rfl
    (iff_of_false (fun hu => nomatch hu.1) fun hu => hne hu.2) (fun hu => absurd hu.2 hne) rfl rfl rfl

/-! ## `cyclic_remove` -/

def Shared.remove (s : Shared) (i : ℕ) : Shared :=
  let cpu := heapRemove (release s.cpu (s.cpu.heap i)) (s.cpu.heap i) i
  { s with
    cpu := cpu
    modifier := if cpu.rpend ≠ 0 then .removeWait (s.cpu.heap i) else .removeEnd }

section Remove

variable {i : ℕ} {wait : Bool}

theorem remove_rest (s : Shared) (i : ℕ) : SameRest s.cpu (s.remove i).cpu := by
  obtain ⟨h, -, -⟩ := heapRemove_frame (release s.cpu (s.cpu.heap i)) (s.cpu.heap i) i
  exact ⟨h.size, h.state, h.softbuf, h.modifyLevels, h.modifyWait, h.posted⟩

theorem remove_cyclics (s : Shared) (i : ℕ) : (s.remove i).cpu.cyclics = update s.cpu.cyclics
      (s.cpu.heap i) { s.cpu.cyclics (s.cpu.heap i) with pend := 0, flags := cyfFree } :=
  (heapRemove_frame (release s.cpu (s.cpu.heap i)) (s.cpu.heap i) i).2.2

theorem remove_rpend (hs : SharedInv s) (hm : s.modifier = .removing ndx wait) (i : ℕ) :
    (s.remove i).cpu.rpend = (s.cpu.cyclics (s.cpu.heap i)).pend := by
  have hz := hs.rpend (by simp [hm]) (by simp [hm])
  have h := (heapRemove_frame (release s.cpu (s.cpu.heap i)) (s.cpu.heap i) i).2.1
  show (heapRemove (release s.cpu (s.cpu.heap i)) (s.cpu.heap i) i).rpend = _
  rw [h]
  show (if (s.cpu.cyclics (s.cpu.heap i)).pend ≠ 0 then (s.cpu.cyclics (s.cpu.heap i)).pend
    else s.cpu.rpend) = _
  split_ifs with hp
  · rfl
  · rw [hz, not_not.1 hp]

theorem remove_modifier (s : Shared) (i : ℕ) : (s.remove i).modifier =
    if (s.remove i).cpu.rpend ≠ 0 then .removeWait (s.cpu.heap i) else .removeEnd := rfl

section

variable (hs : SharedInv s) (hm : s.modifier = .removing ndx wait)
include hs hm

theorem remove_waiting (h : (s.remove i).modifier = .removeWait c) :
    c = s.cpu.heap i ∧ (s.cpu.cyclics (s.cpu.heap i)).pend ≠ 0 := by
  rw [remove_modifier, remove_rpend hs hm] at h
  split_ifs at h with hp
  injection h with h
  exact ⟨h.symm, hp⟩

theorem remove_unpaid : (s.remove i).Unpaid c ↔ c = s.cpu.heap i ∧
    (s.cpu.cyclics (s.cpu.heap i)).pend ≠ 0 := by
  constructor
  · exact fun hu => remove_waiting hs hm hu.1
  · rintro ⟨rfl, hp⟩
    refine ⟨?_, ?_⟩
    · rw [remove_modifier, remove_rpend hs hm, if_pos hp]
    · rw [(remove_rest s i).modifyWait]
      exact hs.sema (by simp [hm]) (by simp [hm])

theorem sameCounts_remove (i c : ℕ) : SameCounts s (s.remove i) c := by
  have hpaid : ¬ s.Unpaid c := fun hu => nomatch hm.symm.trans hu.1
  have hunpaid := remove_unpaid (i := i) (c := c) hs hm
  by_cases hc : c = s.cpu.heap i
  · subst hc
    have he : (s.remove i).cpu.cyclics (s.cpu.heap i) =
        { s.cpu.cyclics (s.cpu.heap i) with pend := 0, flags := cyfFree } := by
      rw [remove_cyclics, update_self]
    have hpend : ((s.remove i).cpu.cyclics (s.cpu.heap i)).pend = 0 := by rw [he]
    refine ⟨⟨by rw [he], by rw [he], by rw [he], ?_, fun hu => absurd hu hpaid, id⟩, ?_, rfl, rfl⟩
    · unfold Shared.Pending
      rw [hpend, hunpaid]
      simp only [Nat.lt_irrefl, false_or, true_and, hpaid, or_false, Nat.pos_iff_ne_zero]
    · rw [due_of_paid hpaid]
      by_cases hz : (s.cpu.cyclics (s.cpu.heap i)).pend = 0
      · rw [due_of_paid fun hu => (hunpaid.1 hu).2 hz, hpend, hz]
      · rw [(hunpaid.2 ⟨rfl, hz⟩).due, remove_rpend hs hm]
  · have he : (s.remove i).cpu.cyclics c = s.cpu.cyclics c := by rw [remove_cyclics, update_of_ne hc]
    have hpaid' : ¬ (s.remove i).Unpaid c := fun hu => hc (hunpaid.1 hu).1
    refine ⟨⟨by rw [he], by rw [he], by rw [he], ?_, fun hu => absurd hu hpaid, id⟩, ?_, rfl, rfl⟩
    · unfold Shared.Pending
      rw [he]
      exact or_congr_right (iff_of_false hpaid' hpaid)
    · rw [due_of_paid hpaid, due_of_paid hpaid', he]

end

theorem LevelInv.remove (h : LevelInv s l t q q') (hs : SharedInv s)
    (hm : s.modifier = .removing ndx wait) (i : ℕ) : LevelInv (s.remove i) l t q q' := by
  have hrest := remove_rest s i
  refine h.frame_all ?_ (sameCounts_remove hs hm i)
  exact .of_softbuf (congrFun hrest.softbuf l) rfl hrest.size rfl fun hp =>
    (congrFun hrest.posted l).trans hp

theorem SharedInv.remove (hs : SharedInv s) (hm : s.modifier = .removing ndx wait)
    (hi : i < s.cpu.nelems) : SharedInv (s.remove i) := by
  have hrest := remove_rest s i
  have hrpend := remove_rpend hs hm i
  have hfree : cyfFree &&& cyfFree != 0 := by decide
  have hok : Slots (s.remove i).cpu ∧ ByExpire (s.remove i).cpu :=
    heapRemove_ok (hs.slots.withRpend _) hs.byExpire hi hfree
  have hnot : (s.remove i).modifier ≠ .expandWait ∧ (s.remove i).modifier ≠ .expandReady ∧
      (s.remove i).modifier.state = .removing := by
    rw [remove_modifier]
    split_ifs <;> simp [Modifier.state]
  have hcyc : ∀ c, c = s.cpu.heap i ∧ ((s.remove i).cpu.cyclics c).pend = 0 ∧
      ((s.remove i).cpu.cyclics c).free = true ∨
      (s.remove i).cpu.cyclics c = s.cpu.cyclics c := by
    intro c
    rw [remove_cyclics]
    by_cases hc : c = s.cpu.heap i
    · left
      rw [hc, update_self]
      exact ⟨rfl, rfl, hfree⟩
    · right
      rw [update_of_ne hc]
  have hwait : s.cpu.modifyWait = 0 := hs.sema (by simp [hm]) (by simp [hm])
  refine
    { slots := hok.1
      byExpire := hok.2
      pow := by rw [hrest.size]; exact hs.pow
      freePend := fun c hc => ?_
      bound := fun c => ?_
      small := fun c hc => ?_
      state := ?_
      settled := fun _ l => ?_
      old := fun he => absurd he hnot.1
      ready := fun he => absurd he hnot.2.1
      waiting := fun c hc => ?_
      rpend := fun h1 h2 => ?_
      sema := fun _ _ => hrest.modifyWait.trans hwait
      semaRemove := fun _ _ => by rw [hrest.modifyWait, hwait]; exact Nat.zero_le 1
      semaExpand := fun he => absurd he hnot.1
      beyond := by rw [hrest.size]; exact hs.beyond }
  · rcases hcyc c with ⟨-, hp, -⟩ | he
    · exact hp
    · rw [he] at hc ⊢
      exact hs.freePend c hc
  · rcases hcyc c with ⟨-, hp, -⟩ | he
    · rw [hp]
      decide
    · rw [he]
      exact hs.bound c
  · rcases hcyc c with ⟨-, hp, -⟩ | he
    · rw [hp]
      decide
    · rw [he]
      exact hs.small c hc
  · rw [hrest.state, hs.state, hnot.2.2, hm]
    rfl
  · show ((s.remove i).cpu.softbuf l).hard = ((s.remove i).cpu.softbuf l).soft
    rw [hrest.softbuf]
    exact hs.settled (by simp [hm]) l
  · obtain ⟨rfl, hp⟩ := remove_waiting hs hm hc
    rw [hrpend]
    refine ⟨Nat.pos_of_ne_zero hp, hs.bound _, ?_⟩
    rwa [remove_cyclics, update_self]
  · rw [remove_modifier] at h1 h2
    by_contra hne
    rw [if_pos hne] at h1
    exact h1 _ rfl

end Remove

end Osol.Cyc
