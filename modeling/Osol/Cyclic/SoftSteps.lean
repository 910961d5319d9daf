import Osol.Cyclic.SoftFrame

/-!
# The reads of a soft interrupt

Each access of `cyclic_softint` takes what is known before it to what is known after it. Here
are those that leave the memory as it is.
-/

namespace Osol.Cyc

open List

variable {s s' : Shared} {l : SoftLevel} {t t' : Thread} {q q' : List ℕ} {c : ℕ}

/-! ## Moves -/

/-- Nothing is in flight, and no entry is half consumed. -/
def SoftPc.calm (pc : SoftPc) : Bool :=
  !pc.inFlight && pc != .rpendCall && pc != .advance

theorem SoftPc.calm_iff {pc : SoftPc} :
    pc.calm = true ↔ pc.inFlight = false ∧ pc ≠ .rpendCall ∧ pc ≠ .advance := by
  simp [SoftPc.calm, and_assoc]

theorem ahead_calm (h : t.pc.inFlight = false) (c : ℕ) : ahead t c = 0 := by
  unfold ahead
  rw [if_neg (by simp [h])]

theorem owed_eq (h : t.pc ≠ .rpendCall) (s : Shared) (c : ℕ) : owed s t c = s.due c :=
  if_neg fun hc => h hc.1

theorem done_calm (h : t.pc ≠ .advance) : t.pc.done = 0 := by
  cases hp : t.pc with
  | advance => exact absurd hp h
  | _ => rfl

theorem LevelInv.move_calm (h : LevelInv s l t q q') (hp : t.pc.calm = true)
    (hp' : t'.pc.calm = true) (hk : Known s l t' q q' t'.pc) : LevelInv s l t' q q' := by
  obtain ⟨hf, hr, hd⟩ := SoftPc.calm_iff.1 hp
  obtain ⟨hf', hr', hd'⟩ := SoftPc.calm_iff.1 hp'
  refine ⟨?_, hk, fun c hlev hlarge => ?_⟩
  · rw [done_calm hd', ← done_calm hd]
    exact h.queue
  · rw [ahead_calm hf', owed_eq hr', ← owed_eq hr, ← ahead_calm hf c]
    exact h.account c hlev hlarge

theorem inFlight_ne (h : t.pc.inFlight = true) : t.pc ≠ .rpendCall ∧ t.pc ≠ .advance := by
  constructor <;>
  · intro hp
    rw [hp] at h
    cases h

theorem LevelInv.move_inFlight (h : LevelInv s l t q q') (hp : t.pc.inFlight = true)
    (hp' : t'.pc.inFlight = true) (hn : t'.ndx = t.ndx) (hk : Known s l t' q q' t'.pc) :
    LevelInv s l t' q q' := by
  obtain ⟨hr, hd⟩ := inFlight_ne hp
  obtain ⟨hr', hd'⟩ := inFlight_ne hp'
  refine ⟨?_, hk, fun c hlev hlarge => ?_⟩
  · rw [done_calm hd', ← done_calm hd]
    exact h.queue
  · have hahead : ahead t' c = ahead t c := by
      unfold ahead
      rw [hp, hp', hn]
    rw [hahead, owed_eq hr', ← owed_eq hr]
    exact h.account c hlev hlarge

/-! ## The array of cyclics -/

theorem CycOk.array (h : CycOk s l t) (hs : SharedInv s) :
    (t.cyclics = s.gen ∧ s.array t.cyclics = some s.cpu.cyclics) ∨
      ∃ a, t.cyclics ≠ s.gen ∧ s.array t.cyclics = some a ∧ ¬ s.Settled l ∧ s.old = some a ∧ ∀ c,
      (a c).pend = 0 := by
  rcases h with he | ⟨he, hset⟩
  · left
    refine ⟨he, ?_⟩
    unfold Shared.array
    rw [if_pos he]
  right
  have hwait : s.modifier = .expandWait := by
    by_contra hne
    exact hset (hs.settled hne l)
  obtain ⟨a, ha, hpend⟩ := hs.old hwait
  refine ⟨a, by omega, ?_, hset, ha, hpend⟩
  unfold Shared.array
  rw [if_neg (by omega), if_pos he, ha]

theorem CycOk.array_queued {done : ℕ} (h : CycOk s l t) (hs : SharedInv s)
    (hq : QueueInv s l q q' done) (hc : c ∈ q) : ∃ a, s.array t.cyclics = some a ∧
      (a c).handler = (s.cpu.cyclics c).handler ∧ (a c).arg = (s.cpu.cyclics c).arg ∧
      (t.cyclics = s.gen → a = s.cpu.cyclics) ∧ (t.cyclics ≠ s.gen → (a c).pend = 0) := by
  rcases h.array hs with ⟨he, ha⟩ | ⟨a, hne, ha, hset, hold, hpend⟩
  · exact ⟨_, ha, rfl, rfl, fun _ => rfl, fun hne => absurd he hne⟩
  · obtain ⟨hh, harg⟩ := hq.oldSame hset a hold c hc
    exact ⟨a, ha, hh, harg, fun he => absurd he hne, fun _ => hpend c⟩

theorem InLoop.pc (h : InLoop s l t) : (s.cpu.softbuf l).buf t.soft = s.softPc l := by
  rw [h.soft]
  rfl

theorem InLoop.entry (h : InLoop s l t) (hq : QueueInv s l (c :: q) q' 0) :
    ((s.cpu.softbuf l).buf t.soft).buf (t.consndx &&& t.sizemask) = c := by
  rw [h.pc, h.cons, h.mask]
  exact hq.ring.head

theorem InLoop.congr (h : InLoop s l t) (hc : t'.cyclics = t.cyclics) (hs : t'.soft = t.soft)
    (hn : t'.consndx = t.consndx) (hm : t'.sizemask = t.sizemask) : InLoop s l t' where
  cyc := by
    unfold CycOk
    rw [hc]
    exact h.cyc
  soft := hs.trans h.soft
  cons := hn.trans h.cons
  mask := hm.trans h.mask

theorem Ready.congr (h : Ready s l t q) (hc : t'.cyclics = t.cyclics) (hs : t'.soft = t.soft)
    (hn : t'.consndx = t.consndx) (hm : t'.sizemask = t.sizemask) (hi : t'.ndx = t.ndx)
    (hh : t'.handler = t.handler) (ha : t'.arg = t.arg) : Ready s l t' q where
  loop := h.loop.congr hc hs hn hm
  head := by rw [hi]; exact h.head
  handler := by rw [hi, hh]; exact h.handler
  arg := by rw [hi, ha]; exact h.arg

theorem Ready.setPc (h : Ready s l t q) (pc : SoftPc) : Ready s l { t with pc := pc } q :=
  h.congr rfl rfl rfl rfl rfl rfl rfl

/-! ## Up to the call -/

section Steps

variable (h : LevelInv s l t q q')

include h

theorem LevelInv.queue_calm (hp : t.pc ≠ .advance) : QueueInv s l q q' 0 := by
  have hq := h.queue
  rwa [done_calm hp] at hq

theorem LevelInv.known_at {pc : SoftPc} (hp : t.pc = pc) : Known s l t q q' pc := hp ▸ h.known

theorem LevelInv.start (hp : t.pc = .start) : LevelInv s l { t with cyclics := s.gen, pc := .top } q q' :=
  h.move_calm (hp ▸ rfl) rfl (Or.inl rfl)

theorem LevelInv.top (hp : t.pc = .top) :
    LevelInv s l { t with soft := (s.cpu.softbuf l).soft, pc := .readCons } q q' := by
  have hk : CycOk s l t := h.known_at hp
  exact h.move_calm (hp ▸ rfl) rfl ⟨hk, rfl⟩

theorem LevelInv.readCons (hp : t.pc = .readCons) : LevelInv s l { t with
      consndx := ((s.cpu.softbuf l).buf t.soft).consndx, pc := .readMask } q q' := by
  obtain ⟨hc, hsoft⟩ := h.known_at hp
  refine h.move_calm (hp ▸ rfl) rfl ⟨hc, hsoft, ?_⟩
  rw [hsoft]
  rfl

theorem LevelInv.readMask (hp : t.pc = .readMask) : LevelInv s l { t with
      sizemask := ((s.cpu.softbuf l).buf t.soft).sizemask, pc := .test } q q' := by
  obtain ⟨hc, hsoft, hcons⟩ := h.known_at hp
  have hloop : InLoop s l { t with
      sizemask := ((s.cpu.softbuf l).buf t.soft).sizemask, pc := .test } :=
    ⟨hc, hsoft, hcons, by rw [hsoft]; rfl⟩
  exact h.move_calm (hp ▸ rfl) rfl hloop

theorem LevelInv.test (hp : t.pc = .test) : LevelInv s l { t with
      pc := if t.consndx = ((s.cpu.softbuf l).buf t.soft).prodndx then .checkHard
        else .readNdx } q q' := by
  have hk : InLoop s l t := h.known_at hp
  have hq : q = [] ↔ t.consndx = ((s.cpu.softbuf l).buf t.soft).prodndx := by
    rw [hk.pc, hk.cons]
    exact (h.queue_calm (by simp [hp])).ring.eq_nil_iff
  split
  next he =>
    exact h.move_calm (hp ▸ rfl) rfl ⟨hk.cyc, hk.soft, fun _ => hq.2 he, fun _ hne => absurd (hq.2 he) hne⟩
  next hne => exact h.move_calm (hp ▸ rfl) rfl ⟨hk.congr rfl rfl rfl rfl, fun he => hne (hq.1 he)⟩

theorem LevelInv.readNdx (hp : t.pc = .readNdx) : LevelInv s l { t with
      ndx := ((s.cpu.softbuf l).buf t.soft).buf (t.consndx &&& t.sizemask)
      pc := .readHandler } q q' := by
  obtain ⟨hloop, hne⟩ := h.known_at hp
  obtain ⟨c, q1, rfl⟩ := exists_cons_of_ne_nil hne
  have hentry := hloop.entry (h.queue_calm (by simp [hp]))
  rw [hentry]
  exact h.move_calm (hp ▸ rfl) rfl ⟨hloop.congr rfl rfl rfl rfl, rfl⟩

theorem LevelInv.readHandler (hs : SharedInv s) (hp : t.pc = .readHandler) :
    ∃ a, s.array t.cyclics = some a ∧
      LevelInv s l { t with handler := (a t.ndx).handler, pc := .readArg } q q' := by
  obtain ⟨hloop, hhead⟩ := h.known_at hp
  obtain ⟨a, ha, hhandler, -⟩ := hloop.cyc.array_queued hs h.queue (List.mem_of_mem_head? hhead)
  refine ⟨a, ha, h.move_calm (hp ▸ rfl) rfl ⟨hloop.congr rfl rfl rfl rfl, hhead, ?_⟩⟩
  exact hhandler

theorem LevelInv.readArg (hs : SharedInv s) (hp : t.pc = .readArg) : ∃ a, s.array t.cyclics = some a ∧
      LevelInv s l { t with arg := (a t.ndx).arg, pc := .call } q q' := by
  obtain ⟨hloop, hhead, hhandler⟩ := h.known_at hp
  obtain ⟨a, ha, -, harg, -⟩ := hloop.cyc.array_queued hs h.queue (List.mem_of_mem_head? hhead)
  have hready : Ready s l { t with arg := (a t.ndx).arg, pc := .call } q :=
    ⟨hloop.congr rfl rfl rfl rfl, hhead, hhandler, harg⟩
  exact ⟨a, ha, h.move_calm (hp ▸ rfl) rfl hready⟩

/-! ## The pending count -/

theorem LevelInv.reread (hs : SharedInv s) (hp : t.pc = .reread) : ∃ a, s.array t.cyclics = some a ∧
      LevelInv s l { t with
        pend := (a t.ndx).pend % 2 ^ 32
        pc := if (a t.ndx).pend % 2 ^ 32 = 0 then .checkState else .cas } q q' := by
  have hready : Ready s l t q := h.known_at hp
  have hmem := hready.mem
  obtain ⟨a, ha, -, -, hnow, -⟩ := hready.loop.cyc.array_queued hs h.queue hmem
  refine ⟨a, ha, ?_⟩
  have hready' : ∀ pc, Ready s l { t with pend := (a t.ndx).pend % 2 ^ 32, pc := pc } q := fun pc =>
    hready.congr rfl rfl rfl rfl rfl rfl rfl
  split
  next hz =>
    refine h.move_inFlight (hp ▸ rfl) rfl rfl ⟨hready' _, fun he => ?_⟩
    -- a cyclic that is queued with nothing pending is being removed
    rcases (h.queue.mem t.ndx (mem_append_left _ hmem)).2.2 with hpos | hunpaid
    · have := hs.bound t.ndx
      rw [hnow he] at hz
      omega
    · exact hunpaid
  next hz => exact h.move_inFlight (hp ▸ rfl) rfl rfl ⟨hready' _, Nat.pos_of_ne_zero hz⟩

theorem LevelInv.checkState (hs : SharedInv s) (hp : t.pc = .checkState) : LevelInv s l { t with
      pc := if s.cpu.state = .removing then .rpendHandler else .reloadCyc } q q' := by
  obtain ⟨hready, hunpaid⟩ := h.known_at hp
  split
  next hrem =>
    -- in a removal no resize is going on
    have hne : s.modifier ≠ .expandWait := by
      intro he
      rw [hs.state, he] at hrem
      cases hrem
    have hgen : t.cyclics = s.gen := hready.loop.cyc.resolve_right fun hold => hold.2 (hs.settled hne l)
    exact h.move_inFlight (hp ▸ rfl) rfl rfl ⟨hready.setPc _, hgen, hunpaid hgen⟩
  next => exact h.move_inFlight (hp ▸ rfl) rfl rfl (hready.setPc .reloadCyc)

theorem LevelInv.reloadCyc (hp : t.pc = .reloadCyc) :
    LevelInv s l { t with cyclics := s.gen, pc := .reloadNdx } q q' := by
  have hready : Ready s l t q := h.known_at hp
  have hready' : Ready s l { t with cyclics := s.gen, pc := .reloadNdx } q :=
    ⟨⟨Or.inl rfl, hready.loop.soft, hready.loop.cons, hready.loop.mask⟩, hready.head,
      hready.handler, hready.arg⟩
  exact h.move_inFlight (hp ▸ rfl) rfl rfl hready'

theorem LevelInv.reloadNdx (hp : t.pc = .reloadNdx) : LevelInv s l { t with
      ndx := ((s.cpu.softbuf l).buf t.soft).buf (t.consndx &&& t.sizemask)
      pc := .reread } q q' := by
  have hready : Ready s l t q := h.known_at hp
  obtain ⟨q1, rfl⟩ := head?_eq_some_iff.1 hready.head
  have hentry := hready.loop.entry (h.queue_calm (by simp [hp]))
  rw [hentry]
  exact h.move_inFlight (hp ▸ rfl) rfl rfl (hready.setPc .reread)

theorem LevelInv.rpendHandler (hs : SharedInv s) (hp : t.pc = .rpendHandler) :
    ∃ a, s.array t.cyclics = some a ∧
      LevelInv s l { t with handler := (a t.ndx).handler, pc := .rpendArg } q q' := by
  obtain ⟨hready, hgen, hunpaid⟩ := h.known_at hp
  obtain ⟨a, ha, hhandler, -⟩ := hready.loop.cyc.array_queued hs h.queue hready.mem
  refine ⟨a, ha, h.move_inFlight (hp ▸ rfl) rfl rfl ⟨?_, hgen, hunpaid⟩⟩
  exact hready.congr rfl rfl rfl rfl rfl (hhandler.trans hready.handler.symm) rfl

theorem LevelInv.rpendArg (hs : SharedInv s) (hp : t.pc = .rpendArg) : ∃ a, s.array t.cyclics = some a ∧
      LevelInv s l { t with arg := (a t.ndx).arg, pc := .rpendRead } q q' := by
  obtain ⟨hready, hgen, hunpaid⟩ := h.known_at hp
  obtain ⟨a, ha, -, harg, -⟩ := hready.loop.cyc.array_queued hs h.queue hready.mem
  refine ⟨a, ha, h.move_inFlight (hp ▸ rfl) rfl rfl ⟨?_, hgen, hunpaid⟩⟩
  exact hready.congr rfl rfl rfl rfl rfl rfl (harg.trans hready.arg.symm)

/-! ## The end of the loop -/

theorem LevelInv.checkHard (hp : t.pc = .checkHard) : LevelInv s l { t with
      pc := if t.soft ≠ (s.cpu.softbuf l).hard then .switchCyc
        else if t.resized then .readLev else .idle } q q' := by
  obtain ⟨-, hsoft, hempty, hposted⟩ := h.known_at hp
  have hset : s.Settled l ↔ ¬ t.soft ≠ (s.cpu.softbuf l).hard := by
    unfold Shared.Settled
    rw [hsoft, ne_eq, not_not, eq_comm]
  have hwoken : s.Settled l → Woken s l q q' := by
    intro hs hne
    rw [h.queue.settled hs, append_nil] at hne
    exact hposted hs hne
  split
  next hne =>
    have hns : ¬ s.Settled l := fun hs => hset.1 hs hne
    exact h.move_calm (hp ▸ rfl) rfl ⟨hns, hempty hns⟩
  next he =>
    split
    next hr => exact h.move_calm (hp ▸ rfl) rfl ⟨hr, hwoken (hset.2 he)⟩
    next => exact h.move_calm (hp ▸ rfl) rfl (hwoken (hset.2 he))

theorem LevelInv.switchCyc (hp : t.pc = .switchCyc) :
    LevelInv s l { t with cyclics := s.gen, pc := .readHard } q q' := by
  obtain ⟨hns, hq⟩ := h.known_at hp
  exact h.move_calm (hp ▸ rfl) rfl ⟨hns, hq, rfl⟩

theorem LevelInv.readHard (hp : t.pc = .readHard) :
    LevelInv s l { t with hard := (s.cpu.softbuf l).hard, pc := .writeSoft } q q' := by
  obtain ⟨hns, hq, hgen⟩ := h.known_at hp
  exact h.move_calm (hp ▸ rfl) rfl ⟨hns, hq, hgen, rfl⟩

theorem LevelInv.readLev (hp : t.pc = .readLev) (lev : ℕ) :
    LevelInv s l { t with lev := lev, pc := .casLev } q q' := by
  have hk : t.resized = true ∧ Woken s l q q' := h.known_at hp
  exact h.move_calm (hp ▸ rfl) rfl hk

end Steps

end Osol.Cyc
