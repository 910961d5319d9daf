import Osol.Cyclic.Heap

/-!
# `cyclic_fire`

A turn of the loop expires the cyclic at the root and gives it a later expiration, so that the
loop ends with nothing due. A handler may reprogram its own cyclic.
-/

namespace Osol.Cyc

open Osol.Lib Heap Function Int Option Finset

variable {cpu cpu' : CycCpu} {ndx : ℕ} {now : ℤ}

/-! ## The next expiration -/

variable {exp interval : ℤ}

theorem nextExpire_gt (hint : 0 < interval) (hexp : exp ≤ now)
    (hnow : now < cyInfinity) : exp < nextExpire now exp interval := by
  unfold nextExpire
  dsimp only
  split_ifs with hinf hlate hlate
  · have : nanosec = 1000000000 := rfl
    omega
  · omega
  · have hdiv : 0 ≤ (now - (exp + interval)).tdiv interval :=
      Int.tdiv_nonneg (by have : nanosec = 1000000000 := rfl; omega) hint.le
    have := Int.mul_pos (show 0 < (now - (exp + interval)).tdiv interval + 1 by omega) hint
    omega
  · omega

theorem nextExpire_modEq (hinf : interval ≠ cyInfinity) :
    nextExpire now exp interval ≡ exp [ZMOD interval] := by
  unfold nextExpire
  rw [if_neg hinf]
  dsimp only
  split_ifs
  · rw [modEq_comm, modEq_iff_dvd]
    exact ⟨1 + ((now - (exp + interval)).tdiv interval + 1), by ring⟩
  · rw [modEq_comm, modEq_iff_dvd]
    exact ⟨1, by ring⟩

theorem nextExpire_infinity (hnow : now < cyInfinity) : nextExpire now exp cyInfinity = cyInfinity := by
  unfold nextExpire
  rw [if_pos rfl]
  rw [if_neg]
  have : nanosec = 1000000000 := rfl
  omega

/-- The expiration of a cyclic after it expired at `exp` and its handler made these calls. -/
def afterExpire (level : Level) (now interval : ℤ) (calls : List (ℕ × ℤ)) (exp : ℤ) : ℤ :=
  match level, calls with
  | .high, [(_, t)] => if t = exp then nextExpire now exp interval else t
  | _, _ => nextExpire now exp interval

/-! ## A turn -/

/-- Only the cyclic `ndx` gets another expiration. -/
structure Fired (cpu cpu' : CycCpu) (ndx : ℕ) (exp : ℤ) : Prop where
  nelems : cpu'.nelems = cpu.nelems
  size : cpu'.size = cpu.size
  state : cpu'.state = cpu.state
  expire : (cpu'.cyclics ndx).expire = exp
  others : ∀ c, c ≠ ndx → (cpu'.cyclics c).expire = (cpu.cyclics c).expire
  interval : ∀ c, (cpu'.cyclics c).interval = (cpu.cyclics c).interval
  level : ∀ c, (cpu'.cyclics c).level = (cpu.cyclics c).level
  free : ∀ c, (cpu'.cyclics c).free = (cpu.cyclics c).free

theorem Fired.trans {cpu'' : CycCpu} {exp' : ℤ} (h : Fired cpu cpu' ndx exp)
    (h' : Fired cpu' cpu'' ndx exp') : Fired cpu cpu'' ndx exp' where
  nelems := h'.nelems.trans h.nelems
  size := h'.size.trans h.size
  state := h'.state.trans h.state
  expire := h'.expire
  others := fun c hc => (h'.others c hc).trans (h.others c hc)
  interval := fun c => (h'.interval c).trans (h.interval c)
  level := fun c => (h'.level c).trans (h.level c)
  free := fun c => (h'.free c).trans (h.free c)

theorem Fired.refl (cpu : CycCpu) (ndx : ℕ) : Fired cpu cpu ndx (cpu.cyclics ndx).expire :=
  ⟨rfl, rfl, rfl, rfl, fun _ _ => rfl, fun _ => rfl, fun _ => rfl, fun _ => rfl⟩

section

variable (hn : cpu'.nelems = cpu.nelems) (hsz : cpu'.size = cpu.size) (hst : cpu'.state = cpu.state)
include hn hsz hst

theorem Fired.of_update {c : Cyclic} (hcyc : cpu'.cyclics = update cpu.cyclics ndx c)
    (hi : c.interval = (cpu.cyclics ndx).interval) (hl : c.level = (cpu.cyclics ndx).level)
    (hfr : c.free = (cpu.cyclics ndx).free) : Fired cpu cpu' ndx c.expire where
  nelems := hn
  size := hsz
  state := hst
  expire := by rw [hcyc, update_self]
  others := fun d hd => by rw [hcyc, update_of_ne hd]
  interval := fun d => by rw [hcyc]; exact update_congr Cyclic.interval hi d
  level := fun d => by rw [hcyc]; exact update_congr Cyclic.level hl d
  free := fun d => by rw [hcyc]; exact update_congr Cyclic.free hfr d

theorem Fired.of_expire (hcyc : cpu'.cyclics = update cpu.cyclics ndx
    { cpu.cyclics ndx with expire := exp }) :
    Fired cpu cpu' ndx exp := by
  have hf := Fired.of_update hn hsz hst hcyc rfl rfl rfl
  exact hf

end

/-- What an expiration leaves: the cyclic has the expiration `exp`, and is at the root as long
as that is the old one. -/
structure Expired (cpu cpu' : CycCpu) (exp : ℤ) : Prop where
  slots : Slots cpu'
  byExpire : ByExpire cpu'
  fired : Fired cpu cpu' (cpu.heap 0) exp
  stays : exp = cpu.root.expire → cpu'.heap 0 = cpu.heap 0

section

variable (hs : Slots cpu) (ho : ByExpire cpu)
include hs ho

theorem Expired.refl : Expired cpu cpu cpu.root.expire :=
  ⟨hs, ho, .refl .., fun _ => rfl⟩

theorem setCyclic_pend_ok (pend : ℕ)
    (hh : cpu'.heap = cpu.heap) (hn : cpu'.nelems = cpu.nelems) (hsz : cpu'.size = cpu.size)
    (hst : cpu'.state = cpu.state)
    (hcyc : cpu'.cyclics = update cpu.cyclics (cpu.heap 0) { cpu.cyclics (cpu.heap 0) with pend := pend }) :
    Expired cpu cpu' cpu.root.expire where
  slots := (pend_ok hs ho hh hn hsz hcyc).1
  byExpire := (pend_ok hs ho hh hn hsz hcyc).2
  fired := by
    have hf := Fired.of_update hn hsz hst hcyc rfl rfl rfl
    exact hf
  stays := fun _ => by rw [hh]

theorem expireSoft_ok (l : SoftLevel) : Expired cpu (expireSoft cpu l (cpu.heap 0)) cpu.root.expire := by
  unfold expireSoft
  dsimp only
  split_ifs
  · exact setCyclic_pend_ok hs ho 1 rfl rfl rfl rfl rfl
  · exact setCyclic_pend_ok hs ho (2 ^ 32 - 1) rfl rfl rfl rfl rfl
  · exact setCyclic_pend_ok hs ho _ rfl rfl rfl rfl rfl

theorem reprogram_root_ok (hne : cpu.nelems ≠ 0) (t : ℤ) :
    ∃ cpu', callHandler cpu [(cpu.heap 0, t)] = some cpu' ∧ Expired cpu cpu' t := by
  have hpos := Nat.pos_of_ne_zero hne
  obtain ⟨i, hi, he, heq⟩ := reprogram_eq ⟨0, hpos, rfl⟩ t
  have hle := hs.le
  obtain rfl : i = 0 := hs.heap_inj (by omega) (by omega) he
  refine ⟨reprogramAt cpu (cpu.heap 0) t 0, ?_, ?_⟩
  · unfold callHandler
    rw [List.foldlM_cons, heq]
    rfl
  obtain ⟨h1, h2⟩ := reprogramAt_ok hs ho t hi
  have hr := reprogramAt_reprogrammed cpu (cpu.heap 0) t 0
  refine ⟨h1, h2, .of_expire hr.nelems hr.size hr.state hr.cyclics, ?_⟩
  rintro rfl
  unfold reprogramAt CycCpu.root
  dsimp only
  rw [reheap_same]
  split_ifs <;> rfl

end

/-- The handlers reprogram at most their own cyclics, once in a call. -/
def SelfOnly (calls : List (ℕ × ℤ)) (ndx : ℕ) : Prop := calls = [] ∨ ∃ t, calls = [(ndx, t)]

/-- The expiration of a cyclic right after its handler, or the soft interrupt, is called. -/
def handlerExpire (level : Level) (calls : List (ℕ × ℤ)) (exp : ℤ) : ℤ :=
  match level, calls with
  | .high, [(_, t)] => t
  | _, _ => exp

variable {calls : List (ℕ × ℤ)}

theorem cyclicExpire_ok (hs : Slots cpu) (ho : ByExpire cpu) (hne : cpu.nelems ≠ 0)
    (hc : SelfOnly calls (cpu.heap 0)) :
    ∃ cpu', cyclicExpire cpu (cpu.heap 0) calls = some cpu' ∧
      Expired cpu cpu' (handlerExpire cpu.root.level calls cpu.root.expire) := by
  unfold cyclicExpire
  rw [show (cpu.cyclics (cpu.heap 0)).level = cpu.root.level from rfl]
  cases cpu.root.level with
  | soft l => exact ⟨_, rfl, expireSoft_ok hs ho l⟩
  | high =>
    rcases hc with rfl | ⟨t, rfl⟩
    · exact ⟨cpu, rfl, .refl hs ho⟩
    · exact reprogram_root_ok hs ho hne t

theorem afterExpire_eq (level : Level) (interval : ℤ) (calls : List (ℕ × ℤ)) (exp : ℤ) :
    afterExpire level now interval calls exp =
      if handlerExpire level calls exp ≠ exp then handlerExpire level calls exp
      else nextExpire now exp interval := by
  unfold afterExpire handlerExpire
  split
  · split_ifs <;> simp_all
  · simp

theorem advance_ok (now : ℤ) (hs : Slots cpu) (ho : ByExpire cpu) (hne : cpu.nelems ≠ 0)
    (hstays : (cpu.cyclics ndx).expire = exp → cpu.heap 0 = ndx) :
    Slots (advance cpu ndx now exp) ∧ ByExpire (advance cpu ndx now exp) ∧
    Fired cpu (advance cpu ndx now exp) ndx
        (if (cpu.cyclics ndx).expire ≠ exp then (cpu.cyclics ndx).expire
          else nextExpire now exp (cpu.cyclics ndx).interval) := by
  unfold advance
  by_cases hr : (cpu.cyclics ndx).expire ≠ exp
  · rw [if_pos hr, if_pos hr]
    exact ⟨hs, ho, .refl ..⟩
  rw [if_neg hr, if_neg hr]
  have hpos := Nat.pos_of_ne_zero hne
  obtain rfl := hstays (not_not.1 hr)
  have hh := ho.setCyclic_hole hs hpos
    { cpu.cyclics (cpu.heap 0) with
      expire := nextExpire now exp (cpu.cyclics (cpu.heap 0)).interval }
  have hs' : Slots (cpu.setCyclic (cpu.heap 0) { cpu.cyclics (cpu.heap 0) with
      expire := nextExpire now exp (cpu.cyclics (cpu.heap 0)).interval }) :=
    hs.setCyclic rfl rfl
  exact ⟨hs'.downheap hpos, downheap_byExpire hh fun h => absurd h (Nat.lt_irrefl 0),
    .of_expire rfl rfl rfl rfl⟩

theorem fireRoot_ok (now : ℤ) (hs : Slots cpu) (ho : ByExpire cpu) (hne : cpu.nelems ≠ 0)
    (hc : SelfOnly calls (cpu.heap 0)) :
    ∃ cpu', fireRoot cpu now calls = some cpu' ∧ Slots cpu' ∧ ByExpire cpu' ∧ Fired cpu cpu' (cpu.heap 0)
        (afterExpire cpu.root.level now cpu.root.interval calls cpu.root.expire) := by
  obtain ⟨cpu1, h1, hexp⟩ := cyclicExpire_ok hs ho hne hc
  have he := hexp.fired.expire
  obtain ⟨h2, h3, h4⟩ := advance_ok now hexp.slots hexp.byExpire
    (hexp.fired.nelems ▸ hne) fun h => hexp.stays (he.symm.trans h)
  refine ⟨_, ?_, h2, h3, ?_⟩
  · unfold fireRoot
    rw [h1]
    rfl
  · rw [afterExpire_eq]
    rw [he, hexp.fired.interval] at h4
    exact hexp.fired.trans h4

/-! ## The loop -/

section Loop

variable {hs : Handlers} {k : ℕ} {log : List (ℕ × ℤ)} {last : CycCpu}

/-- The expirations of the cyclic `ndx` in the log, from the `k`-th on, are those it has from
`exp` to `exp'`: each that was due, in order. -/
def Accounted (hs : Handlers) (now : ℤ) (ndx : ℕ) (level : Level) (interval : ℤ) :
    List (ℕ × ℤ) → ℕ → ℤ → ℤ → Prop
  | [], _, exp, exp' => exp' = exp
  | (i, x) :: log, k, exp, exp' =>
    if i = ndx then
      x = exp ∧ exp ≤ now ∧ Accounted hs now ndx level interval log (k + 1)
        (afterExpire level now interval (hs k ndx) exp) exp'
    else Accounted hs now ndx level interval log (k + 1) exp exp'

/-- What the loop of `cyclic_fire` leaves. -/
structure FireDone (hs : Handlers) (now : ℤ) (k : ℕ) (cpu : CycCpu) (log : List (ℕ × ℤ))
    (last : CycCpu) : Prop where
  slots : Slots last
  byExpire : ByExpire last
  nelems : last.nelems = cpu.nelems
  size : last.size = cpu.size
  state : last.state = cpu.state
  later : now < last.root.expire
  programmed : last.programmed = some last.root.expire
  free : ∀ c, (last.cyclics c).free = (cpu.cyclics c).free
  accounted : ∀ c, Accounted hs now c (cpu.cyclics c).level (cpu.cyclics c).interval log k
    (cpu.cyclics c).expire (last.cyclics c).expire

theorem FireDone.cons {cpu1 : CycCpu} (hdue : cpu.root.expire ≤ now)
    (hf : Fired cpu cpu1 (cpu.heap 0) (afterExpire cpu.root.level now cpu.root.interval
      (hs k (cpu.heap 0)) cpu.root.expire))
    (h : FireDone hs now (k + 1) cpu1 log last) :
    FireDone hs now k cpu ((cpu.heap 0, cpu.root.expire) :: log) last where
  slots := h.slots
  byExpire := h.byExpire
  nelems := h.nelems.trans hf.nelems
  size := h.size.trans hf.size
  state := h.state.trans hf.state
  later := h.later
  programmed := h.programmed
  free := fun c => (h.free c).trans (hf.free c)
  accounted := by
    intro c
    have hc := h.accounted c
    rw [hf.level, hf.interval] at hc
    unfold Accounted
    by_cases he : cpu.heap 0 = c
    · subst he
      rw [if_pos rfl]
      rw [hf.expire] at hc
      exact ⟨rfl, hdue, hc⟩
    · rw [if_neg he]
      rwa [hf.others c (Ne.symm he)] at hc

/-- The loop comes to its end from here. -/
def Ends (hs : Handlers) (now : ℤ) (k : ℕ) (cpu : CycCpu) : Prop :=
  ∃ fuel log last, fireLoop hs now fuel k cpu = some (log, last) ∧ FireDone hs now k cpu log last

theorem ends_of_turn (hself : ∀ k ndx, SelfOnly (hs k ndx) ndx) (hsl : Slots cpu)
    (ho : ByExpire cpu) (hne : cpu.nelems ≠ 0)
    (hturn : ∀ cpu1, Slots cpu1 → ByExpire cpu1 → cpu1.nelems ≠ 0 → cpu.root.expire ≤ now →
      Fired cpu cpu1 (cpu.heap 0) (afterExpire cpu.root.level now cpu.root.interval
        (hs k (cpu.heap 0)) cpu.root.expire) → Ends hs now (k + 1) cpu1) :
    Ends hs now k cpu := by
  by_cases hdue : now < cpu.root.expire
  · refine ⟨1, [], cpu.reprogram cpu.root.expire, if_pos hdue, ?_⟩
    exact ⟨hsl.reprogram _, ho, rfl, rfl, rfl, hdue, rfl, fun _ => rfl, fun _ => rfl⟩
  obtain ⟨cpu1, hroot, hs1, ho1, hf⟩ := fireRoot_ok now hsl ho hne (hself k _)
  obtain ⟨fuel, log, last, hloop, hdone⟩ := hturn cpu1 hs1 ho1 (hf.nelems ▸ hne) (not_lt.1 hdue) hf
  refine ⟨fuel + 1, _, last, ?_, hdone.cons (not_lt.1 hdue) hf⟩
  unfold fireLoop
  rw [if_neg hdue, hroot]
  show (fireLoop hs now fuel (k + 1) cpu1).bind _ = _
  rw [hloop]
  rfl

/-- How far the cyclics are behind. -/
def debt (now : ℤ) (cpu : CycCpu) : ℕ :=
  ∑ c ∈ range cpu.size, (now + 1 - (cpu.cyclics c).expire).toNat

theorem debt_lt (hf : Fired cpu cpu' ndx exp) (hlt : ndx < cpu.size)
    (hdue : (cpu.cyclics ndx).expire ≤ now) (hexp : (cpu.cyclics ndx).expire < exp) :
    debt now cpu' < debt now cpu := by
  unfold debt
  rw [hf.size]
  refine sum_lt_sum (fun c _ => ?_) ⟨ndx, mem_range.2 hlt, ?_⟩
  · by_cases hc : c = ndx
    · rw [hc, hf.expire]
      omega
    · rw [hf.others c hc]
  · rw [hf.expire]
    omega

variable {level : Level}

theorem afterExpire_gt
    (hlate : ∀ call ∈ calls, now < call.2) (hint : 0 < interval) (hdue : exp ≤ now)
    (hnow : now < cyInfinity) : exp < afterExpire level now interval calls exp := by
  have hnext := nextExpire_gt hint hdue hnow
  unfold afterExpire
  split
  · rename_i i t
    have := hlate (i, t) (List.mem_singleton.2 rfl)
    split_ifs
    · exact hnext
    · exact lt_of_le_of_lt hdue this
  · exact hnext

/-- The handlers reprogram to the past only finitely often. -/
def EventuallyLater (hs : Handlers) (now : ℤ) : Prop :=
  ∃ K, ∀ k, K ≤ k → ∀ ndx, ∀ call ∈ hs k ndx, now < call.2

theorem ends_of_later {K : ℕ} (hself : ∀ k ndx, SelfOnly (hs k ndx) ndx) (hnow : now < cyInfinity)
    (hK : ∀ k, K ≤ k → ∀ ndx, ∀ call ∈ hs k ndx, now < call.2) :
    ∀ (s k : ℕ) (cpu : CycCpu), debt now cpu ≤ s → K ≤ k → Slots cpu → ByExpire cpu →
      cpu.nelems ≠ 0 → Ends hs now k cpu := by
  intro s
  induction s using Nat.strongRecOn with
  | _ s ih =>
    intro k cpu hd hk hsl ho hne
    refine ends_of_turn hself hsl ho hne fun cpu1 hs1 ho1 hne1 hdue hf => ?_
    have hpos := Nat.pos_of_ne_zero hne
    have hsize : 0 < cpu.size := hpos.trans_le hsl.le
    have hlt := hsl.heap_lt hsize
    have hint := hsl.interval _ hlt ((hsl.used _ hlt).2 ⟨0, hpos, rfl⟩)
    have hdebt := debt_lt hf hlt hdue (afterExpire_gt (hK k hk _) hint hdue hnow)
    exact ih (debt now cpu1) (by omega) (k + 1) cpu1 (le_refl _) (by omega) hs1 ho1 hne1

theorem ends {hs : Handlers} (hself : ∀ k ndx, SelfOnly (hs k ndx) ndx) (hnow : now < cyInfinity)
    (hlate : EventuallyLater hs now) (hsl : Slots cpu) (ho : ByExpire cpu) (hne : cpu.nelems ≠ 0) :
    Ends hs now 0 cpu := by
  obtain ⟨K, hK⟩ := hlate
  have hall : ∀ (d k : ℕ) (cpu : CycCpu), K - k ≤ d → Slots cpu → ByExpire cpu → cpu.nelems ≠ 0 →
      Ends hs now k cpu := by
    intro d
    induction d with
    | zero =>
      intro k cpu hd hsl ho hne
      exact ends_of_later hself hnow hK _ k cpu (le_refl _) (by omega) hsl ho hne
    | succ d ih =>
      intro k cpu hd hsl ho hne
      exact ends_of_turn hself hsl ho hne fun cpu1 hs1 ho1 hne1 _ _ =>
        ih (k + 1) cpu1 (by omega) hs1 ho1 hne1
  exact hall K 0 cpu (by omega) hsl ho hne

theorem fireLoop_done (hself : ∀ k ndx, SelfOnly (hs k ndx) ndx) : ∀ (fuel k : ℕ) (cpu : CycCpu)
    (log : List (ℕ × ℤ)) (last : CycCpu), Slots cpu → ByExpire cpu → cpu.nelems ≠ 0 →
    fireLoop hs now fuel k cpu = some (log, last) → FireDone hs now k cpu log last := by
  intro fuel
  induction fuel with
  | zero =>
    intro k cpu log last _ _ _ h
    cases h
  | succ fuel ih =>
    intro k cpu log last hsl ho hne h
    unfold fireLoop at h
    by_cases hdue : now < cpu.root.expire
    · rw [if_pos hdue] at h
      cases h
      exact ⟨hsl.reprogram _, ho, rfl, rfl, rfl, hdue, rfl, fun _ => rfl, fun _ => rfl⟩
    obtain ⟨cpu1, hroot, hs1, ho1, hf⟩ := fireRoot_ok now hsl ho hne (hself k _)
    rw [if_neg hdue, hroot] at h
    simp only [bind_eq_bind, bind_some] at h
    obtain ⟨⟨log', last'⟩, hloop, he⟩ := bind_eq_some_iff.1 h
    cases he
    exact (ih _ _ _ _ hs1 ho1 (hf.nelems ▸ hne) hloop).cons (not_lt.1 hdue) hf

theorem Accounted.eq_of_later : ∀ (log : List (ℕ × ℤ)) (k : ℕ)
    (exp exp' : ℤ), now < exp → Accounted hs now ndx level interval log k exp exp' → exp' = exp := by
  intro log
  induction log with
  | nil => exact fun _ _ _ _ h => h
  | cons entry log ih =>
    intro k exp exp' hlt h
    unfold Accounted at h
    split_ifs at h
    · exact absurd h.2.1 (not_le.2 hlt)
    · exact ih _ _ _ hlt h

theorem Accounted.modEq (hno : ∀ k, hs k ndx = [])
    (hnow : now < cyInfinity) : ∀ (log : List (ℕ × ℤ)) (k : ℕ) (exp exp' : ℤ),
    Accounted hs now ndx level interval log k exp exp' →
      exp' ≡ exp [ZMOD interval] ∨ interval = cyInfinity ∧ exp' = cyInfinity := by
  intro log
  induction log with
  | nil =>
    intro k exp exp' h
    exact .inl (h ▸ Int.ModEq.refl _)
  | cons entry log ih =>
    intro k exp exp' h
    unfold Accounted at h
    split_ifs at h with hi
    · obtain ⟨-, -, h⟩ := h
      have hafter : afterExpire level now interval (hs k ndx) exp = nextExpire now exp interval := by
        rw [hno]
        cases level <;> rfl
      rw [hafter] at h
      by_cases hinf : interval = cyInfinity
      · right
        subst hinf
        rw [nextExpire_infinity hnow] at h
        exact ⟨rfl, h.eq_of_later _ _ _ _ hnow⟩
      · rcases ih _ _ _ h with h | h
        · exact .inl (h.trans (nextExpire_modEq hinf))
        · exact .inr h
    · exact ih _ _ _ h

end Loop

end Osol.Cyc
