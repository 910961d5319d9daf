import Osol.Cyclic.Fire

/-!
# Runs of a CPU

The cross calls and the interrupt in any order, from a configured CPU.
-/

namespace Osol.Cyc

open Osol.Lib Heap Set

variable {cpu cpu' : CycCpu}

/-- What runs at the high level. -/
inductive Op where
  | add (hdlr : Handler) (cytWhen cytInterval : ℤ) (flags : BitVec 16) (now : ℤ)
  | remove (ndx : ℕ) (wait : Bool)
  | reprogram (ndx : ℕ) (expire : ℤ)
  | fire (now : ℤ) (hs : Handlers)
  | expand

/-- What the callers see to. The handlers reprogram at most their own cyclics. -/
def Legal (cpu : CycCpu) : Op → Prop
  | .add _ _ cytInterval flags _ =>
    cpu.nelems < cpu.size ∧ 0 < cytInterval ∧ flags &&& cyfFree = 0
  | .fire now hs => now < cyInfinity ∧ ∀ k ndx, SelfOnly (hs k ndx) ndx
  | .remove _ _ | .reprogram _ _ | .expand => True

/-- What an operation does, when it neither panics nor goes on for ever. -/
inductive Step (cpu : CycCpu) : Op → CycCpu → Prop where
  | add (hdlr : Handler) (cytWhen cytInterval : ℤ) (flags : BitVec 16) (now : ℤ) :
    Step cpu (.add hdlr cytWhen cytInterval flags now)
      (cyclicAddXcall cpu hdlr cytWhen cytInterval flags now).1
  | remove {ndx : ℕ} {wait : Bool} {cpu' : CycCpu} {out : Removed}
    (h : cyclicRemoveXcall cpu ndx wait = some (cpu', out)) : Step cpu (.remove ndx wait) cpu'
  | reprogram {ndx : ℕ} {expire : ℤ} {cpu' : CycCpu}
    (h : cyclicReprogramCyclic cpu ndx expire = some cpu') : Step cpu (.reprogram ndx expire) cpu'
  | fire {now : ℤ} {hs : Handlers} {fuel : ℕ} {log : List (ℕ × ℤ)} {cpu' : CycCpu}
    (h : cyclicFire hs now fuel cpu = some (log, cpu')) : Step cpu (.fire now hs) cpu'
  | expand : Step cpu .expand (cyclicExpandXcall cpu)

/-- The states of a CPU. -/
inductive Reach : CycCpu → Prop where
  | configured : Reach configured
  | step {cpu cpu' : CycCpu} {op : Op} (h : Reach cpu) (hl : Legal cpu op) (hs : Step cpu op cpu') :
    Reach cpu'

/-- The heap is in order and the back end knows of its root. -/
structure Sound (cpu : CycCpu) : Prop where
  slots : Slots cpu
  byExpire : ByExpire cpu
  programmed : Programmed cpu
  running : cpu.state ≠ .suspended

theorem freeCyclic_free : ¬ freeCyclic.free = false := by decide

theorem configured_sound : Sound configured where
  slots :=
    { le := by decide
      perm := by
        have hone : ∀ i ∈ Iio configured.size, i = 0 := fun i hi => Nat.lt_one_iff.1 hi
        exact ⟨fun i _ => Nat.zero_lt_one, fun i hi j hj _ => (hone i hi).trans (hone j hj).symm,
          fun i hi => ⟨0, Nat.zero_lt_one, (hone i hi).symm⟩⟩
      used := fun _ _ => iff_of_false freeCyclic_free fun ⟨i, hi, _⟩ => absurd hi (Nat.not_lt_zero i)
      interval := fun _ _ h => absurd h freeCyclic_free }
  byExpire := fun j _ hj => absurd hj (Nat.not_lt_zero j)
  programmed := fun h => absurd rfl h
  running := by decide

/-! ## One step -/

theorem insert_state (cpu : CycCpu) (c : Cyclic) : (insert cpu c).state = cpu.state := by
  unfold insert
  dsimp only
  split_ifs <;> rfl

theorem refill_state (cpu : CycCpu) (i : ℕ) : (refill cpu i).1.state = cpu.state := by
  unfold refill
  dsimp only
  split_ifs <;> rfl

theorem heapRemove_state (cpu : CycCpu) (ndx i : ℕ) : (heapRemove cpu ndx i).state = cpu.state := by
  unfold heapRemove
  dsimp only
  split_ifs
  · rfl
  · exact refill_state ..
  · exact refill_state ..

variable {now : ℤ}

theorem Sound.add (h : Sound cpu) {hdlr : Handler} {cytWhen cytInterval : ℤ}
    {flags : BitVec 16} (hl : Legal cpu (.add hdlr cytWhen cytInterval flags now)) :
    Sound (cyclicAddXcall cpu hdlr cytWhen cytInterval flags now).1 := by
  obtain ⟨hlt, hint, hfl⟩ := hl
  have hok := insert_ok h.slots h.byExpire hlt (c := { cpu.cyclics (cpu.heap cpu.nelems) with
      interval := cytInterval
      expire := if cytWhen = 0 then (now.tdiv cytInterval + 1) * cytInterval else cytWhen
      handler := hdlr.func
      arg := hdlr.arg
      level := hdlr.level
      flags := flags }) (by unfold Cyclic.free; rw [hfl]; rfl) hint
  exact ⟨hok.1, hok.2, insert_programmed h.slots h.programmed hlt, (insert_state ..).trans_ne h.running⟩

theorem Sound.remove (h : Sound cpu) {ndx : ℕ} {wait : Bool} {out : Removed}
    (hr : cyclicRemoveXcall cpu ndx wait = some (cpu', out)) : Sound cpu' := by
  have hok := remove_ok h.slots h.byExpire hr
  refine ⟨hok.1, hok.2, remove_programmed h.slots h.programmed hr, ?_⟩
  rcases remove_some hr with ⟨rfl, -⟩ | ⟨i, hi, rfl, rfl, -⟩
  · exact h.running
  · exact (heapRemove_state ..).trans_ne h.running

theorem Sound.reprogram (h : Sound cpu) {ndx : ℕ} {expire : ℤ}
    (hr : cyclicReprogramCyclic cpu ndx expire = some cpu') : Sound cpu' := by
  obtain ⟨i, hi, rfl, rfl⟩ := reprogram_some hr
  have hok := reprogramAt_ok h.slots h.byExpire expire hi
  exact ⟨hok.1, hok.2, reprogramAt_programmed h.slots h.programmed expire hi h.running,
    (reprogramAt_reprogrammed ..).state.trans_ne h.running⟩

theorem FireDone.sound {hs : Handlers} {k : ℕ} {log : List (ℕ × ℤ)}
    (h : FireDone hs now k cpu log cpu') (hst : cpu.state ≠ .suspended) : Sound cpu' :=
  ⟨h.slots, h.byExpire, fun _ => h.programmed, h.state.trans_ne hst⟩

theorem Sound.fire (h : Sound cpu) {hs : Handlers} {fuel : ℕ} {log : List (ℕ × ℤ)}
    (hl : Legal cpu (.fire now hs)) (hf : cyclicFire hs now fuel cpu = some (log, cpu')) :
    Sound cpu' := by
  unfold cyclicFire at hf
  split_ifs at hf with h0
  · cases hf
    exact h
  · exact (fireLoop_done hl.2 _ _ _ _ _ h.slots h.byExpire h0 hf).sound h.running

theorem Sound.step (h : Sound cpu) {op : Op} (hl : Legal cpu op) (hs : Step cpu op cpu') : Sound cpu' := by
  cases hs with
  | add => exact h.add hl
  | remove hr => exact h.remove hr
  | reprogram hr => exact h.reprogram hr
  | fire hf => exact h.fire hl hf
  | expand =>
    exact ⟨h.slots.expand, expand_byExpire h.slots h.byExpire,
      expand_programmed h.slots h.programmed, h.running⟩

/-! ## Whole runs -/

theorem Reach.sound (h : Reach cpu) : Sound cpu := by
  induction h with
  | configured => exact configured_sound
  | step _ hl hs ih => exact ih.step hl hs

/-- In every state the heap is a permutation of the array that has the cyclics in use first, in
the order of a heap, and the back end is programmed for the root. From every state
`cyclic_fire` ends with nothing due, and with each expiration that was due handled in its turn;
a cyclic that its handler does not reprogram keeps its phase, or is put off for ever. -/
theorem cyclic_heap_sound (h : Reach cpu) :
    BijOn cpu.heap (Iio cpu.size) (Iio cpu.size) ∧ cpu.nelems ≤ cpu.size ∧
    (∀ c < cpu.size, (cpu.cyclics c).free = false ↔ ∃ i < cpu.nelems, cpu.heap i = c) ∧
    (∀ i, 0 < i → i < cpu.nelems →
      (cpu.cyclics (cpu.heap ((i - 1) / 2))).expire ≤ (cpu.cyclics (cpu.heap i)).expire) ∧
    (cpu.nelems ≠ 0 → cpu.programmed = some cpu.root.expire) ∧
    ∀ now hs, Legal cpu (.fire now hs) → EventuallyLater hs now →
      ∃ fuel log cpu', cyclicFire hs now fuel cpu = some (log, cpu') ∧
        (cpu.nelems ≠ 0 → now < cpu'.root.expire) ∧
        ∀ c < cpu.size, (cpu.cyclics c).free = false →
          now < (cpu'.cyclics c).expire ∧
          Accounted hs now c (cpu.cyclics c).level (cpu.cyclics c).interval log 0
            (cpu.cyclics c).expire (cpu'.cyclics c).expire ∧
          ((∀ k, hs k c = []) →
            (cpu'.cyclics c).expire ≡ (cpu.cyclics c).expire [ZMOD (cpu.cyclics c).interval] ∨
              (cpu.cyclics c).interval = cyInfinity ∧ (cpu'.cyclics c).expire = cyInfinity) := by
  have hs := h.sound
  refine ⟨hs.slots.perm, hs.slots.le, hs.slots.used, hs.byExpire, hs.programmed, ?_⟩
  intro now handlers hl hlate
  by_cases h0 : cpu.nelems = 0
  · refine ⟨0, [], cpu, if_pos h0, fun hne => absurd h0 hne, fun c hc hfree => ?_⟩
    obtain ⟨i, hi, -⟩ := (hs.slots.used c hc).1 hfree
    omega
  obtain ⟨fuel, log, last, hloop, hdone⟩ := ends hl.2 hl.1 hlate hs.slots hs.byExpire h0
  refine ⟨fuel, log, last, (if_neg h0).trans hloop, fun _ => hdone.later, fun c hc hfree => ?_⟩
  obtain ⟨i, hi, rfl⟩ := (hdone.slots.used c (hdone.size ▸ hc)).1 ((hdone.free c).trans hfree)
  have hle := hdone.byExpire.root_le hi
  exact ⟨lt_of_lt_of_le hdone.later hle, hdone.accounted _, fun hno =>
    (hdone.accounted _).modEq hno hl.1 _ _ _ _⟩

/-- A CPU with four cyclics of the high level. -/
def fourHigh : CycCpu :=
  let add (cpu : CycCpu) (t : ℤ) := (cyclicAddXcall cpu ⟨0, 0, .high⟩ t 100 0 0).1
  add (add (add (add (cyclicExpandXcall (cyclicExpandXcall configured)) 5) 20) 30) 40

theorem fourHigh_reach : Reach fourHigh := by
  have hadd : ∀ {cpu : CycCpu} (t : ℤ), Reach cpu → cpu.nelems < cpu.size →
      Reach (cyclicAddXcall cpu ⟨0, 0, .high⟩ t 100 0 0).1 := by
    intro cpu t h hlt
    have hl : Legal cpu (.add ⟨0, 0, .high⟩ t 100 0 0) := ⟨hlt, by decide, by decide⟩
    exact h.step hl (.add ..)
  have hexpand : ∀ {cpu : CycCpu}, Reach cpu → Reach (cyclicExpandXcall cpu) := by
    intro cpu h
    have hl : Legal cpu .expand := trivial
    exact h.step hl .expand
  have hexp := hexpand (hexpand .configured)
  exact hadd 40 (hadd 30 (hadd 20 (hadd 5 hexp (by decide)) (by decide)) (by decide)) (by decide)

/-- The first of them is removed, which was the root. -/
def threeHigh : CycCpu := ((cyclicRemoveXcall fourHigh 0 false).map (·.1)).getD fourHigh

theorem threeHigh_reach : Reach threeHigh := by
  have hr : (cyclicRemoveXcall fourHigh 0 false).isSome := by decide
  obtain ⟨r, hr⟩ := Option.isSome_iff_exists.1 hr
  have hl : Legal fourHigh (.remove 0 false) := trivial
  have hreach := fourHigh_reach.step hl (.remove hr)
  rwa [threeHigh, hr]

theorem cyclic_heap_sound_removed :
    BijOn threeHigh.heap (Iio 4) (Iio 4) ∧ threeHigh.nelems = 3 ∧
    (threeHigh.cyclics (threeHigh.heap 0)).expire ≤ (threeHigh.cyclics (threeHigh.heap 2)).expire ∧
    threeHigh.programmed = some 20 ∧
    ∃ fuel log cpu', cyclicFire (fun _ _ => []) 25 fuel threeHigh = some (log, cpu') ∧
      25 < cpu'.root.expire := by
  obtain ⟨hperm, -, -, hheap, hprog, hfire⟩ := cyclic_heap_sound threeHigh_reach
  obtain ⟨fuel, log, cpu', hrun, hlater, -⟩ :=
    hfire 25 (fun _ _ => []) ⟨by decide, fun _ _ => .inl rfl⟩ ⟨0, by simp⟩
  exact ⟨hperm, rfl, hheap 2 (by decide) (by decide), hprog (by decide), fuel, log, cpu', hrun,
    hlater (by decide)⟩

/-! ## Handlers that do as they like -/

def oneHigh : CycCpu := (cyclicAddXcall configured ⟨0, 0, .high⟩ 5 100 0 0).1

theorem oneHigh_reach : Reach oneHigh := by
  have hl : Legal configured (.add ⟨0, 0, .high⟩ 5 100 0 0) := by
    unfold Legal
    decide
  exact Reach.configured.step hl (.add ..)

/-- A handler that reprograms its cyclic to the past, each time to another time. -/
def restless : Handlers := fun k ndx => [(ndx, if k % 2 = 0 then 2 else 1)]

theorem restless_never_ends : ∀ (fuel k : ℕ) (cpu : CycCpu), Slots cpu → ByExpire cpu →
    cpu.nelems ≠ 0 → cpu.size = 1 → cpu.root.level = .high → cpu.root.expire ≤ 10 →
    cpu.root.expire ≠ (if k % 2 = 0 then 2 else 1) → fireLoop restless 10 fuel k cpu = none := by
  intro fuel
  induction fuel with
  | zero => exact fun _ _ _ _ _ _ _ _ _ => rfl
  | succ fuel ih =>
    intro k cpu hs ho hne hsz hlev hdue hexp
    obtain ⟨cpu1, hroot, hs1, ho1, hf⟩ := fireRoot_ok 10 hs ho hne (.inr ⟨_, rfl⟩)
    have hlt : ∀ c : CycCpu, Slots c → c.size = 1 → c.heap 0 = 0 := fun c hc h1 =>
      Nat.lt_one_iff.1 (h1 ▸ hc.heap_lt (h1 ▸ Nat.zero_lt_one))
    have hsz1 : cpu1.size = 1 := hf.size.trans hsz
    have hsame : cpu1.root = cpu1.cyclics (cpu.heap 0) := by
      unfold CycCpu.root
      rw [hlt _ hs hsz, hlt _ hs1 hsz1]
    have hexp1 : cpu1.root.expire = if k % 2 = 0 then 2 else 1 := by
      rw [hsame, hf.expire, hlev]
      exact if_neg (Ne.symm hexp)
    unfold fireLoop
    rw [if_neg (not_lt.2 hdue), restless, hroot]
    show (fireLoop restless 10 fuel (k + 1) cpu1).bind _ = _
    rw [ih (k + 1) cpu1 hs1 ho1 (hf.nelems ▸ hne) hsz1]
    · rfl
    · rwa [hsame, hf.level]
    · rw [hexp1]
      split_ifs <;> decide
    · split_ifs <;> omega

/-- The handler of the first cyclic that expires reprograms another one. -/
def meddling : Handlers := fun k _ => if k = 0 then [(3, 3)] else []

/-- With a handler that reprograms its cyclic to the past again and again, `cyclic_fire` does not
end; with one that reprograms another cyclic, an entry of the heap is left below a later one. -/
theorem cyclic_fire_trusts_handlers :
    (Reach oneHigh ∧ ∀ fuel, cyclicFire restless 10 fuel oneHigh = none) ∧
    Reach fourHigh ∧ (cyclicFire meddling 10 3 fourHigh).map
      (fun r => ((r.2.cyclics (r.2.heap 1)).expire, (r.2.cyclics (r.2.heap 3)).expire)) =
        some (105, 20) := by
  refine ⟨⟨oneHigh_reach, fun fuel => ?_⟩, fourHigh_reach, by decide⟩
  have hs := oneHigh_reach.sound
  exact restless_never_ends fuel 0 oneHigh hs.slots hs.byExpire (by decide) rfl (by decide)
    (by decide) (by decide)

end Osol.Cyc
