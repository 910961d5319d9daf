import Osol.Cyclic.Basic

/-!
# The heap of a CPU

The indices in the heap are a permutation of the array; those in use come first and are in the
order of their expirations. Each cross call keeps this, and has the back end programmed for the
root.
-/

namespace Osol.Cyc

open Osol.Lib Heap Function List Nat

variable {cpu cpu' : CycCpu} {ndx i : ℕ}

/-- The indices that are in use come first. -/
structure Slots (cpu : CycCpu) : Prop where
  le : cpu.nelems ≤ cpu.size
  perm : Set.BijOn cpu.heap (Set.Iio cpu.size) (Set.Iio cpu.size)
  used : ∀ c < cpu.size, (cpu.cyclics c).free = false ↔ ∃ i < cpu.nelems, cpu.heap i = c
  interval : ∀ c < cpu.size, (cpu.cyclics c).free = false → 0 < (cpu.cyclics c).interval

def ByExpire (cpu : CycCpu) : Prop :=
  Ordered (fun c => (cpu.cyclics c).expire) cpu.nelems cpu.heap

def Programmed (cpu : CycCpu) : Prop := cpu.nelems ≠ 0 → cpu.programmed = some cpu.root.expire

theorem update_congr {α : Type} {cyclics : ℕ → Cyclic} {c : Cyclic} (f : Cyclic → α)
    (hf : f c = f (cyclics ndx)) (d : ℕ) : f (update cyclics ndx c d) = f (cyclics d) := by
  by_cases hd : d = ndx
  · rw [hd, update_self, hf]
  · rw [update_of_ne hd]

theorem CycCpu.setCyclic_self (cpu : CycCpu) (c : Cyclic) : (cpu.setCyclic ndx c).cyclics ndx = c :=
  update_self ..

namespace Slots

section

variable (h : Slots cpu)
include h

theorem heap_lt (hi : i < cpu.size) : cpu.heap i < cpu.size := h.perm.mapsTo hi

theorem heap_inj {j : ℕ} (hi : i < cpu.size) (hj : j < cpu.size)
    (he : cpu.heap i = cpu.heap j) : i = j :=
  h.perm.injOn hi hj he

theorem rearranged {heap : ℕ → ℕ} (hr : Rearranged cpu.nelems cpu.heap heap) :
    Slots { cpu with heap := heap } where
  le := h.le
  perm := hr.bijOn h.le h.perm
  used := fun c hc => (h.used c hc).trans hr.exists_lt.symm
  interval := h.interval

theorem setCyclic {c : Cyclic} (hf : c.free = (cpu.cyclics ndx).free)
    (hi : c.interval = (cpu.cyclics ndx).interval) : Slots (cpu.setCyclic ndx c) where
  le := h.le
  perm := h.perm
  used := by
    intro d hd
    refine Iff.trans ?_ (h.used d hd)
    rw [show ((cpu.setCyclic ndx c).cyclics d).free = _ from update_congr Cyclic.free hf d]
  interval := by
    intro d hd
    show (update cpu.cyclics ndx c d).free = false → 0 < (update cpu.cyclics ndx c d).interval
    rw [update_congr Cyclic.free hf, update_congr Cyclic.interval hi]
    exact h.interval d hd

theorem setCyclic_cyclics {j : ℕ} {c : Cyclic} (hi : i < cpu.nelems) (hj : j < cpu.nelems) (hji : j ≠ i) :
    (cpu.setCyclic (cpu.heap i) c).cyclics (cpu.heap j) = cpu.cyclics (cpu.heap j) :=
  update_of_ne (fun he => hji (h.heap_inj (hj.trans_le h.le) (hi.trans_le h.le) he)) ..

theorem congr (hh : cpu'.heap = cpu.heap) (hc : cpu'.cyclics = cpu.cyclics)
    (hn : cpu'.nelems = cpu.nelems) (hsz : cpu'.size = cpu.size) : Slots cpu' :=
  ⟨by rw [hn, hsz]; exact h.le, by rw [hh, hsz]; exact h.perm,
    by rw [hsz, hc, hn, hh]; exact h.used, by rw [hsz, hc]; exact h.interval⟩

theorem reprogram (exp : ℤ) : Slots (cpu.reprogram exp) := h.congr rfl rfl rfl rfl

end

end Slots

theorem pend_ok (hs : Slots cpu) (ho : ByExpire cpu) {pend : ℕ} (hh : cpu'.heap = cpu.heap)
    (hn : cpu'.nelems = cpu.nelems) (hsz : cpu'.size = cpu.size)
    (hcyc : cpu'.cyclics = update cpu.cyclics ndx { cpu.cyclics ndx with pend := pend }) :
    Slots cpu' ∧ ByExpire cpu' := by
  have hs' : Slots (cpu.setCyclic ndx { cpu.cyclics ndx with pend := pend }) := hs.setCyclic rfl rfl
  have hkey : ∀ d, (cpu'.cyclics d).expire = (cpu.cyclics d).expire := fun d => by
    rw [hcyc]
    exact update_congr Cyclic.expire (by rfl) d
  refine ⟨hs'.congr hh hcyc hn hsz, fun j hpos hj => ?_⟩
  show (cpu'.cyclics (cpu'.heap (parent j))).expire ≤ (cpu'.cyclics (cpu'.heap j)).expire
  rw [hh, hkey, hkey]
  exact ho j hpos (hn ▸ hj)

/-! ## The two moves -/

theorem Slots.upheap (h : Slots cpu) (hi : i < cpu.nelems) : Slots (cyclicUpheap cpu i).1 :=
  h.rearranged (siftUp_rearranged hi)

theorem Slots.downheap (h : Slots cpu) (hi : i < cpu.nelems) : Slots (cyclicDownheap cpu i) :=
  h.rearranged (siftDown_rearranged hi)

theorem upheap_byExpire (hi : i < cpu.nelems)
    (hh : Hole (fun c => (cpu.cyclics c).expire) cpu.nelems cpu.heap i)
    (hb : FitsBelow (fun c => (cpu.cyclics c).expire) cpu.nelems cpu.heap i) :
    ByExpire (cyclicUpheap cpu i).1 :=
  siftUp_ordered hi (Nat.le_refl i) hh hb

theorem downheap_byExpire (hh : Hole (fun c => (cpu.cyclics c).expire) cpu.nelems cpu.heap i)
    (ha : FitsAbove (fun c => (cpu.cyclics c).expire) cpu.heap i) :
    ByExpire (cyclicDownheap cpu i) :=
  siftDown_ordered (sub_le ..) hh ha

section

variable (ho : ByExpire cpu) (hs : Slots cpu) (hi : i < cpu.nelems)
include ho hs hi

theorem ByExpire.setCyclic_hole (c : Cyclic) :
    Hole (fun d => ((cpu.setCyclic (cpu.heap i) c).cyclics d).expire) cpu.nelems cpu.heap i := by
  refine Ordered.hole ho (fun j hj hji => ?_) hi
  rw [hs.setCyclic_cyclics hi hj hji]

theorem ByExpire.setCyclic_fitsBelow
    {c : Cyclic} (hle : c.expire ≤ (cpu.cyclics (cpu.heap i)).expire) :
    FitsBelow (fun d => ((cpu.setCyclic (cpu.heap i) c).cyclics d).expire) cpu.nelems cpu.heap i := by
  intro j hpos hj hp
  have hlt := parent_lt hpos
  have hord := ho j hpos hj
  rw [hp] at hord
  dsimp only
  rw [hs.setCyclic_cyclics hi hj (by omega), cpu.setCyclic_self]
  exact le_trans hle hord

theorem ByExpire.setCyclic_fitsAbove
    {c : Cyclic} (hle : (cpu.cyclics (cpu.heap i)).expire ≤ c.expire) :
    FitsAbove (fun d => ((cpu.setCyclic (cpu.heap i) c).cyclics d).expire) cpu.heap i := by
  intro hpos
  have hlt := parent_lt hpos
  dsimp only
  rw [hs.setCyclic_cyclics hi (by omega) (by omega), cpu.setCyclic_self]
  exact le_trans (ho i hpos hi) hle

end

theorem Programmed.of_root (h : Programmed cpu) (hn : cpu'.nelems ≠ 0 → cpu.nelems ≠ 0)
    (hp : cpu'.programmed = cpu.programmed)
    (hr : cpu'.nelems ≠ 0 → cpu'.root.expire = cpu.root.expire) : Programmed cpu' := by
  intro hne
  rw [hp, hr hne]
  exact h (hn hne)

theorem upheap_root (cpu : CycCpu) (i : ℕ) : (cyclicUpheap cpu i).1.root.expire =
      if (cyclicUpheap cpu i).2 then (cpu.cyclics (cpu.heap i)).expire else cpu.root.expire := by
  have h : (cyclicUpheap cpu i).1.heap 0 =
      if (cyclicUpheap cpu i).2 then cpu.heap i else cpu.heap 0 := siftUp_root (Nat.le_refl i)
  show (cpu.cyclics ((cyclicUpheap cpu i).1.heap 0)).expire = _
  rw [h]
  split <;> rfl

theorem downheap_root (cpu : CycCpu) (hpos : 0 < i) :
    (cyclicDownheap cpu i).root.expire = cpu.root.expire := by
  have h : (cyclicDownheap cpu i).heap 0 = cpu.heap 0 := siftDown_of_lt hpos
  show (cpu.cyclics ((cyclicDownheap cpu i).heap 0)).expire = _
  rw [h]
  rfl

/-! ## `cyclic_reprogram_cyclic` -/

/-- Only the expiration of `ndx`, the heap and the back end change. -/
structure Reprogrammed (cpu cpu' : CycCpu) (ndx : ℕ) (expire : ℤ) : Prop where
  cyclics : cpu'.cyclics = update cpu.cyclics ndx { cpu.cyclics ndx with expire := expire }
  nelems : cpu'.nelems = cpu.nelems
  size : cpu'.size = cpu.size
  state : cpu'.state = cpu.state

theorem reprogramAt_reprogrammed (cpu : CycCpu) (ndx : ℕ) (expire : ℤ) (i : ℕ) :
    Reprogrammed cpu (reprogramAt cpu ndx expire i) ndx expire := by
  unfold reprogramAt reheap
  dsimp only
  split_ifs <;> exact ⟨rfl, rfl, rfl, rfl⟩

section

variable (hs : Slots cpu) (ho : ByExpire cpu) (expire : ℤ) (hi : i < cpu.nelems)
include hs ho expire hi

theorem reheap_ok : Slots
    (reheap (cpu.setCyclic (cpu.heap i) { cpu.cyclics (cpu.heap i) with expire := expire }) i
      (cpu.cyclics (cpu.heap i)).expire expire).1 ∧
    ByExpire (reheap (cpu.setCyclic (cpu.heap i) { cpu.cyclics (cpu.heap i) with expire := expire })
      i (cpu.cyclics (cpu.heap i)).expire expire).1 := by
  have hs' : Slots (cpu.setCyclic (cpu.heap i)
    { cpu.cyclics (cpu.heap i) with expire := expire }) := hs.setCyclic rfl rfl
  have hh := ho.setCyclic_hole hs hi { cpu.cyclics (cpu.heap i) with expire := expire }
  unfold reheap
  split_ifs with hlt hpos
  · exact ⟨hs'.downheap hi, downheap_byExpire hh (ho.setCyclic_fitsAbove hs hi hlt.le)⟩
  · exact ⟨hs'.upheap hi, upheap_byExpire hi hh (ho.setCyclic_fitsBelow hs hi (le_of_not_gt hlt))⟩
  · exact ⟨hs', hh.ordered (ho.setCyclic_fitsBelow hs hi (le_of_not_gt hlt)) fun h => absurd h hpos⟩

theorem reprogramAt_ok : Slots (reprogramAt cpu (cpu.heap i) expire i) ∧
      ByExpire (reprogramAt cpu (cpu.heap i) expire i) := by
  obtain ⟨h1, h2⟩ := reheap_ok hs ho expire hi
  unfold reprogramAt
  dsimp only
  split_ifs
  · exact ⟨h1.reprogram _, h2⟩
  · exact ⟨h1, h2⟩

end

theorem reheap_root (hs : Slots cpu) (expire oexpire : ℤ) (hi : i < cpu.nelems) (c : Cyclic)
    (hr : (reheap (cpu.setCyclic (cpu.heap i) c) i oexpire expire).2 = false) :
    (reheap (cpu.setCyclic (cpu.heap i) c) i oexpire expire).1.root.expire = cpu.root.expire := by
  have hroot : 0 < i → (cpu.setCyclic (cpu.heap i) c).root.expire = cpu.root.expire := fun hpos =>
    congrArg Cyclic.expire (hs.setCyclic_cyclics hi (by omega) (by omega))
  unfold reheap at hr ⊢
  split_ifs at hr ⊢ with hlt hpos
  · have hpos : 0 < i := Nat.pos_of_ne_zero (of_decide_eq_false hr)
    exact (downheap_root _ hpos).trans (hroot hpos)
  · rw [upheap_root, hr]
    exact hroot hpos

theorem reheap_frame (cpu : CycCpu) (i : ℕ) (oexpire expire : ℤ) :
    (reheap cpu i oexpire expire).1.state = cpu.state ∧
      (reheap cpu i oexpire expire).1.nelems = cpu.nelems ∧
      (reheap cpu i oexpire expire).1.programmed = cpu.programmed := by
  unfold reheap
  split_ifs <;> exact ⟨rfl, rfl, rfl⟩

theorem reheap_same (cpu : CycCpu) (expire : ℤ) : reheap cpu 0 expire expire = (cpu, true) := by
  unfold reheap
  rw [if_neg (lt_irrefl _), if_neg (Nat.lt_irrefl 0)]

theorem reprogramAt_programmed (hs : Slots cpu) (hp : Programmed cpu) (expire : ℤ)
    (hi : i < cpu.nelems) (hst : cpu.state ≠ .suspended) :
    Programmed (reprogramAt cpu (cpu.heap i) expire i) := by
  have hroot := reheap_root hs expire (cpu.cyclics (cpu.heap i)).expire hi
    { cpu.cyclics (cpu.heap i) with expire := expire }
  have hframe := reheap_frame
    (cpu.setCyclic (cpu.heap i) { cpu.cyclics (cpu.heap i) with expire := expire }) i
    (cpu.cyclics (cpu.heap i)).expire expire
  unfold reprogramAt
  dsimp only
  split_ifs with hr
  · exact fun _ => rfl
  · have hflag := Bool.eq_false_iff.2 fun h => hr ⟨h, hframe.1 ▸ hst⟩
    exact hp.of_root (fun h => hframe.2.1 ▸ h) hframe.2.2 fun _ => hroot hflag

theorem reprogram_eq (hc : ∃ i < cpu.nelems, cpu.heap i = ndx) (expire : ℤ) :
    ∃ i < cpu.nelems, cpu.heap i = ndx ∧
      cyclicReprogramCyclic cpu ndx expire = some (reprogramAt cpu ndx expire i) := by
  unfold cyclicReprogramCyclic
  cases hf : (range cpu.nelems).reverse.find? (fun i => cpu.heap i = ndx) with
  | none =>
    obtain ⟨i, hi, he⟩ := hc
    have := List.find?_eq_none.1 hf i (mem_reverse.2 (mem_range.2 hi))
    simp [he] at this
  | some i =>
    have hi := mem_range.1 (mem_reverse.1 (List.mem_of_find?_eq_some hf))
    exact ⟨i, hi, by simpa using List.find?_some hf, rfl⟩

theorem reprogram_some {expire : ℤ} (h : cyclicReprogramCyclic cpu ndx expire = some cpu') :
    ∃ i < cpu.nelems, cpu.heap i = ndx ∧ cpu' = reprogramAt cpu ndx expire i := by
  obtain ⟨i, hf, rfl⟩ := Option.map_eq_some_iff.1 h
  have hi := mem_range.1 (mem_reverse.1 (List.mem_of_find?_eq_some hf))
  exact ⟨i, hi, by simpa using List.find?_some hf, rfl⟩

/-! ## `cyclic_add_xcall` -/

section Append

variable {c : Cyclic}

section

variable (hs : Slots cpu)
include hs

theorem Slots.append (hlt : cpu.nelems < cpu.size) (hf : c.free = false)
    (hi : 0 < c.interval) : Slots (append cpu c) where
  le := hlt
  perm := hs.perm
  used := by
    intro d hd
    show (update cpu.cyclics (cpu.heap cpu.nelems) c d).free = false ↔ ∃ i < cpu.nelems + 1, cpu.heap i = d
    by_cases hdn : d = cpu.heap cpu.nelems
    · rw [hdn, update_self]
      exact iff_of_true hf ⟨cpu.nelems, lt_succ_self _, rfl⟩
    rw [update_of_ne hdn, hs.used d hd]
    constructor
    · rintro ⟨i, hi, he⟩
      exact ⟨i, by omega, he⟩
    · rintro ⟨i, hi, rfl⟩
      have hne : i ≠ cpu.nelems := fun he => hdn (he ▸ rfl)
      exact ⟨i, by omega, rfl⟩
  interval := by
    intro d hd
    show (update cpu.cyclics (cpu.heap cpu.nelems) c d).free = false →
      0 < (update cpu.cyclics (cpu.heap cpu.nelems) c d).interval
    by_cases hdn : d = cpu.heap cpu.nelems
    · rw [hdn, update_self]
      exact fun _ => hi
    · rw [update_of_ne hdn]
      exact hs.interval d hd

theorem append_cyclics (hlt : cpu.nelems < cpu.size) (hi : i < cpu.nelems) :
    (append cpu c).cyclics (cpu.heap i) = cpu.cyclics (cpu.heap i) := by
  have hne : cpu.heap i ≠ cpu.heap cpu.nelems := fun he => by
    have := hs.heap_inj (by omega) hlt he
    omega
  exact update_of_ne hne ..

theorem append_hole (ho : ByExpire cpu) (hlt : cpu.nelems < cpu.size) :
    Hole (fun d => ((append cpu c).cyclics d).expire) (cpu.nelems + 1) cpu.heap cpu.nelems where
  off := by
    intro j hpos hj hj1 _
    have hp := parent_lt hpos
    rw [append_cyclics hs hlt (by omega), append_cyclics hs hlt (by omega)]
    exact ho j hpos (by omega)
  grand := by
    intro _ j hpos hj hp
    have := parent_lt hpos
    omega

theorem insert_ok (ho : ByExpire cpu) (hlt : cpu.nelems < cpu.size)
    (hf : c.free = false) (hint : 0 < c.interval) :
    Slots (insert cpu c) ∧ ByExpire (insert cpu c) := by
  have hs' := hs.append hlt hf hint
  have hi : cpu.nelems < (append cpu c).nelems := lt_succ_self _
  have ho' : ByExpire (cyclicUpheap (append cpu c) cpu.nelems).1 := by
    refine upheap_byExpire hi (append_hole hs ho hlt) fun j hpos hj hp => ?_
    have := parent_lt hpos
    have : j < cpu.nelems + 1 := hj
    omega
  unfold insert
  dsimp only
  split_ifs
  · exact ⟨(hs'.upheap hi).reprogram _, ho'⟩
  · exact ⟨hs'.upheap hi, ho'⟩

theorem insert_programmed (hp : Programmed cpu) (hlt : cpu.nelems < cpu.size) :
    Programmed (insert cpu c) := by
  have hroot := upheap_root (append cpu c) cpu.nelems
  unfold insert
  dsimp only
  split_ifs at hroot ⊢ with hr
  · intro _
    show some c.expire = some (cyclicUpheap (append cpu c) cpu.nelems).1.root.expire
    rw [hroot]
    show _ = some (update cpu.cyclics (cpu.heap cpu.nelems) c (cpu.heap cpu.nelems)).expire
    rw [update_self]
  -- the first cyclic is at the root at once
  have hne : cpu.nelems ≠ 0 := fun h0 => by
    rw [h0] at hr
    exact hr rfl
  refine hp.of_root (fun _ => hne) rfl fun _ => hroot.trans ?_
  exact congrArg Cyclic.expire (append_cyclics hs hlt (Nat.pos_of_ne_zero hne))

end

end Append

/-! ## `cyclic_remove_xcall` -/

theorem Slots.shrink (hs : Slots cpu) {m : ℕ} (hm : cpu.nelems = m + 1) {c : Cyclic}
    (hc : c.free = true) {cpu' : CycCpu} (hheap : cpu'.heap = cpu.heap)
    (hcyc : cpu'.cyclics = update cpu.cyclics (cpu.heap m) c) (hn : cpu'.nelems = m)
    (hsz : cpu'.size = cpu.size) : Slots cpu' where
  le := by
    have := hs.le
    omega
  perm := by
    rw [hheap, hsz]
    exact hs.perm
  used := by
    intro d hd
    rw [hsz] at hd
    rw [hcyc, hheap, hn]
    by_cases hdn : d = cpu.heap m
    · rw [hdn, update_self, hc]
      refine iff_of_false (by simp) ?_
      rintro ⟨i, hi, he⟩
      have := hs.heap_inj (by have := hs.le; omega) (by have := hs.le; omega) he
      omega
    rw [update_of_ne hdn, hs.used d hd, hm]
    constructor
    · rintro ⟨i, hi, rfl⟩
      have hne : i ≠ m := fun he => hdn (he ▸ rfl)
      exact ⟨i, by omega, rfl⟩
    · rintro ⟨i, hi, he⟩
      exact ⟨i, by omega, he⟩
  interval := by
    intro d hd
    rw [hsz] at hd
    rw [hcyc]
    by_cases hdn : d = cpu.heap m
    · rw [hdn, update_self, hc]
      exact fun h => absurd h (by simp)
    · rw [update_of_ne hdn]
      exact hs.interval d hd

theorem refill_slots (hs : Slots cpu) (hi : i < cpu.nelems) : Slots (refill cpu i).1 := by
  unfold refill
  dsimp only
  split_ifs with h0 h1
  · exact hs.downheap (by omega)
  · exact (hs.upheap hi).downheap hi
  · exact hs.upheap hi

theorem refill_byExpire (hs : Slots cpu) (hi : i < cpu.nelems)
    (hh : Hole (fun c => (cpu.cyclics c).expire) cpu.nelems cpu.heap i) :
    ByExpire (refill cpu i).1 := by
  unfold refill
  split_ifs with h0
  · exact downheap_byExpire (h0 ▸ hh) fun h => absurd h (Nat.lt_irrefl 0)
  dsimp only
  by_cases ha : FitsAbove (fun c => (cpu.cyclics c).expire) cpu.heap i
  · have hup : cyclicUpheap cpu i = (cpu, false) := by
      unfold cyclicUpheap
      rw [siftUp_of_fits (Nat.pos_of_ne_zero h0) (Nat.le_refl i) ha]
    rw [hup, if_pos ⟨rfl, rfl⟩]
    exact downheap_byExpire hh ha
  obtain ⟨hpos, hlt, hup⟩ := siftUp_of_not_fits (Nat.le_refl i) ha
  obtain ⟨hh', hb'⟩ := hh.up hpos hi hlt
  have hp := parent_lt hpos
  have ho : ByExpire (cyclicUpheap cpu i).1 := by
    show Ordered _ _ (siftUp _ _ _ _).1
    rw [hup]
    exact siftUp_ordered (Nat.lt_trans hp hi) (by omega) hh' hb'
  -- the entry at `i` is another one now
  have hne : (cyclicUpheap cpu i).1.heap i ≠ cpu.heap i := by
    have he : (cyclicUpheap cpu i).1.heap i = cpu.heap (parent i) := by
      show (siftUp _ _ _ _).1 i = _
      rw [hup, siftUp_of_lt hp, exch_right]
    rw [he]
    intro heq
    have := hs.heap_inj (by have := hs.le; omega) (hi.trans_le hs.le) heq
    omega
  rwa [if_neg fun h => hne h.2]

theorem refill_root (hr : (refill cpu i).2 = false) : (refill cpu i).1.root.expire = cpu.root.expire := by
  unfold refill at hr ⊢
  by_cases h0 : i = 0
  · rw [if_pos h0] at hr
    cases hr
  rw [if_neg h0] at hr ⊢
  dsimp only at hr ⊢
  have hup := upheap_root cpu i
  rw [hr] at hup ⊢
  split_ifs
  · exact (downheap_root _ (Nat.pos_of_ne_zero h0)).trans hup
  · exact hup

theorem refill_frame (cpu : CycCpu) (i : ℕ) :
    (refill cpu i).1.nelems = cpu.nelems ∧ (refill cpu i).1.programmed = cpu.programmed := by
  unfold refill
  dsimp only
  split_ifs <;> exact ⟨rfl, rfl⟩

theorem update_update_eq_exch (heap : ℕ → ℕ) (i m : ℕ) :
    update (update heap i (heap m)) m (heap i) = exch heap i m := by
  funext j
  by_cases hj : j = m
  · rw [hj, update_self, exch_right]
  · rw [update_of_ne hj]
    by_cases hji : j = i
    · rw [hji, update_self, exch_left]
    · rw [update_of_ne hji, exch_of_ne hji hj]

section Remove

variable {c : Cyclic}

theorem exch_dropLast_slots (hs : Slots cpu) (hi : i < cpu.nelems) (hc : c.free = true) :
    Slots { dropLast (cpu.setCyclic (cpu.heap i) c) with
      heap := exch cpu.heap i (cpu.nelems - 1) } := by
  have hr : Slots { cpu with heap := exch cpu.heap i (cpu.nelems - 1) } :=
    hs.rearranged (Rearranged.exch hi (by omega))
  have hm : cpu.nelems = cpu.nelems - 1 + 1 := by omega
  refine hr.shrink hm hc rfl ?_ rfl rfl
  show update cpu.cyclics (cpu.heap i) c =
    update cpu.cyclics (exch cpu.heap i (cpu.nelems - 1) (cpu.nelems - 1)) c
  rw [exch_right]

theorem exch_dropLast_hole (hs : Slots cpu) (ho : ByExpire cpu) (hi : i < cpu.nelems - 1) :
    Hole (fun d => ((cpu.setCyclic (cpu.heap i) c).cyclics d).expire) (cpu.nelems - 1)
      (exch cpu.heap i (cpu.nelems - 1)) i := by
  have ho' : Ordered (fun d => (cpu.cyclics d).expire) (cpu.nelems - 1) cpu.heap :=
    fun j hpos hj => ho j hpos (by omega)
  refine ho'.hole (fun j hj hji => ?_) hi
  rw [exch_of_ne hji (by omega), hs.setCyclic_cyclics (by omega) (by omega) hji]

theorem heapRemove_last (cpu : CycCpu) (ndx : ℕ) :
    heapRemove (cpu.setCyclic ndx c) ndx (cpu.nelems - 1) = dropLast (cpu.setCyclic ndx c) :=
  if_pos rfl

theorem heapRemove_inner (cpu : CycCpu) (hi : i < cpu.nelems - 1) :
    heapRemove (cpu.setCyclic (cpu.heap i) c) (cpu.heap i) i =
      let r := refill { dropLast (cpu.setCyclic (cpu.heap i) c) with
        heap := exch cpu.heap i (cpu.nelems - 1) } i
      if r.2 then r.1.reprogram r.1.root.expire else r.1 := by
  rw [← update_update_eq_exch]
  exact if_neg (Nat.ne_of_lt hi)

theorem heapRemove_ok (hs : Slots cpu) (ho : ByExpire cpu) (hi : i < cpu.nelems)
    (hc : c.free = true) :
    Slots (heapRemove (cpu.setCyclic (cpu.heap i) c) (cpu.heap i) i) ∧
      ByExpire (heapRemove (cpu.setCyclic (cpu.heap i) c) (cpu.heap i) i) := by
  rcases Nat.lt_or_ge i (cpu.nelems - 1) with him | him
  · have hs' := exch_dropLast_slots hs hi hc
    have h1 := refill_slots hs' him
    have h2 := refill_byExpire hs' him (exch_dropLast_hole hs ho him)
    rw [heapRemove_inner cpu him]
    dsimp only
    split_ifs
    · exact ⟨h1.reprogram _, h2⟩
    · exact ⟨h1, h2⟩
  · obtain rfl : i = cpu.nelems - 1 := by omega
    rw [heapRemove_last]
    have hm : cpu.nelems = cpu.nelems - 1 + 1 := by omega
    refine ⟨hs.shrink hm hc rfl rfl rfl rfl, fun j hpos hj => ?_⟩
    have hj : j < cpu.nelems - 1 := hj
    have hp := parent_lt hpos
    show ((cpu.setCyclic (cpu.heap (cpu.nelems - 1)) c).cyclics (cpu.heap (parent j))).expire ≤
      ((cpu.setCyclic (cpu.heap (cpu.nelems - 1)) c).cyclics (cpu.heap j)).expire
    rw [hs.setCyclic_cyclics hi (by omega) (by omega), hs.setCyclic_cyclics hi (by omega) (by omega)]
    exact ho j hpos (by omega)

theorem heapRemove_programmed (hs : Slots cpu) (hp : Programmed cpu) (hi : i < cpu.nelems) :
    Programmed (heapRemove (cpu.setCyclic (cpu.heap i) c) (cpu.heap i) i) := by
  have hroot : 0 < i → ((cpu.setCyclic (cpu.heap i) c).cyclics (cpu.heap 0)).expire =
    cpu.root.expire := fun hpos =>
    congrArg Cyclic.expire (hs.setCyclic_cyclics hi (by omega) (by omega))
  rcases Nat.lt_or_ge i (cpu.nelems - 1) with him | him
  · rw [heapRemove_inner cpu him]
    dsimp only
    split_ifs with hr
    · exact fun _ => rfl
    have hflag := Bool.eq_false_iff.2 hr
    have hpos : 0 < i := by
      rcases Nat.eq_zero_or_pos i with rfl | hpos
      · exact absurd rfl hr
      · exact hpos
    obtain ⟨hn, hpr⟩ := refill_frame
      { dropLast (cpu.setCyclic (cpu.heap i) c) with
        heap := exch cpu.heap i (cpu.nelems - 1) } i
    refine hp.of_root (fun _ => by omega) hpr fun _ => (refill_root hflag).trans ?_
    show ((cpu.setCyclic (cpu.heap i) c).cyclics (exch cpu.heap i (cpu.nelems - 1) 0)).expire = _
    rw [exch_of_ne (by omega) (by omega)]
    exact hroot hpos
  · obtain rfl : i = cpu.nelems - 1 := by omega
    rw [heapRemove_last]
    exact hp.of_root (fun _ => by omega) rfl fun hne => hroot (Nat.pos_of_ne_zero hne)

theorem Slots.withRpend (hs : Slots cpu) (rpend : ℕ) : Slots { cpu with rpend := rpend } :=
  hs.congr rfl rfl rfl rfl

variable {wait : Bool} {out : Removed}

theorem remove_some (h : cyclicRemoveXcall cpu ndx wait = some (cpu', out)) :
    cpu' = cpu ∧ out.wait ≠ wait ∨ ∃ i < cpu.nelems, cpu.heap i = ndx ∧
      cpu' = heapRemove (release cpu ndx) ndx i ∧ out.wait = wait := by
  unfold cyclicRemoveXcall at h
  dsimp only at h
  split_ifs at h with hw
  · left
    cases h
    exact ⟨rfl, by rw [hw.2]; simp⟩
  · right
    obtain ⟨i, hf, he⟩ := Option.map_eq_some_iff.1 h
    have hi : i < cpu.nelems := mem_range.1 (List.mem_of_find?_eq_some hf)
    cases he
    exact ⟨i, hi, by simpa using List.find?_some hf, rfl, rfl⟩

theorem remove_ok (hs : Slots cpu) (ho : ByExpire cpu)
    (h : cyclicRemoveXcall cpu ndx wait = some (cpu', out)) : Slots cpu' ∧ ByExpire cpu' := by
  rcases remove_some h with ⟨rfl, -⟩ | ⟨i, hi, rfl, rfl, -⟩
  · exact ⟨hs, ho⟩
  · refine heapRemove_ok (hs.withRpend _) ho hi ?_
    show (cyfFree &&& cyfFree != 0) = true
    decide

theorem remove_programmed (hs : Slots cpu) (hp : Programmed cpu)
    (h : cyclicRemoveXcall cpu ndx wait = some (cpu', out)) : Programmed cpu' := by
  rcases remove_some h with ⟨rfl, -⟩ | ⟨i, hi, rfl, rfl, -⟩
  · exact hp
  · exact heapRemove_programmed (hs.withRpend _) hp hi

end Remove

/-! ## `cyclic_expand_xcall` -/

theorem Slots.expand (hs : Slots cpu) : Slots (cyclicExpandXcall cpu) where
  le := by
    have := hs.le
    show cpu.nelems ≤ 2 * cpu.size
    omega
  perm := by
    refine ⟨fun i _ => ?_, fun i _ j _ he => ?_, fun c hc => ?_⟩
    · show (if i < cpu.size then cpu.heap i else i) < 2 * cpu.size
      split_ifs with hi
      · have := hs.heap_lt hi
        omega
      · assumption
    · have he : (if i < cpu.size then cpu.heap i else i) = if j < cpu.size then cpu.heap j else j := he
      split_ifs at he with hi hj hj
      · exact hs.heap_inj hi hj he
      · have := hs.heap_lt hi
        omega
      · have := hs.heap_lt hj
        omega
      · exact he
    · by_cases hlt : c < cpu.size
      · obtain ⟨i, hi, rfl⟩ := hs.perm.surjOn hlt
        exact ⟨i, Nat.lt_of_lt_of_le hi (Nat.le_mul_of_pos_left _ (by decide)), if_pos hi⟩
      · exact ⟨c, hc, if_neg hlt⟩
  used := by
    intro c _
    have hle := hs.le
    have hheap : ∀ i < cpu.nelems, (if i < cpu.size then cpu.heap i else i) = cpu.heap i :=
      fun i hi => if_pos (by omega)
    show (if c < cpu.size then cpu.cyclics c else freeCyclic).free = false ↔
      ∃ i < cpu.nelems, (if i < cpu.size then cpu.heap i else i) = c
    by_cases hc : c < cpu.size
    · rw [if_pos hc, hs.used c hc]
      exact exists_congr fun i => and_congr_right fun hi => by rw [hheap i hi]
    · rw [if_neg hc]
      refine iff_of_false (by decide) ?_
      rintro ⟨i, hi, rfl⟩
      rw [hheap i hi] at hc
      exact hc (hs.heap_lt (by omega))
  interval := by
    intro c _
    show (if c < cpu.size then cpu.cyclics c else freeCyclic).free = false →
      0 < (if c < cpu.size then cpu.cyclics c else freeCyclic).interval
    split_ifs with hc
    · exact hs.interval c hc
    · exact fun h => absurd h (by decide)

theorem expand_cyclics (hs : Slots cpu) (hi : i < cpu.nelems) :
    (cyclicExpandXcall cpu).cyclics ((cyclicExpandXcall cpu).heap i) = cpu.cyclics (cpu.heap i) := by
  have hlt : i < cpu.size := hi.trans_le hs.le
  have hheap : (cyclicExpandXcall cpu).heap i = cpu.heap i := if_pos hlt
  rw [hheap]
  exact if_pos (hs.heap_lt hlt)

theorem expand_byExpire (hs : Slots cpu) (ho : ByExpire cpu) : ByExpire (cyclicExpandXcall cpu) := by
  intro j hpos hj
  have hp := parent_lt hpos
  have hj : j < cpu.nelems := hj
  dsimp only
  rw [expand_cyclics hs hj, expand_cyclics hs (by omega)]
  exact ho j hpos hj

theorem expand_programmed (hs : Slots cpu) (hp : Programmed cpu) : Programmed (cyclicExpandXcall cpu) :=
  hp.of_root id rfl fun hne => congrArg Cyclic.expire (expand_cyclics hs (Nat.pos_of_ne_zero hne))

end Osol.Cyc
