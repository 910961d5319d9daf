import Mathlib

/-!
# Binary heaps in an array

The first `n` entries of an array are a heap when no entry has a smaller key than its parent.
An entry whose key changed is a hole: what does not touch it is still in order, and it is moved
up or down until it fits.
-/

namespace Osol.Lib

variable {α K : Type}

/-! ## Positions -/

namespace Heap

def parent (i : ℕ) : ℕ := (i - 1) / 2

def left (i : ℕ) : ℕ := 2 * (i + 1) - 1

def right (i : ℕ) : ℕ := 2 * (i + 1)

theorem parent_lt {i : ℕ} (h : 0 < i) : parent i < i := by
  unfold parent
  omega

theorem parent_eq_iff {i j : ℕ} (h : 0 < j) : parent j = i ↔ j = left i ∨ j = right i := by
  unfold parent left right
  omega

end Heap

open Heap Set

/-! ## Rearrangements -/

def exch (h : ℕ → α) (i j : ℕ) : ℕ → α := h ∘ Equiv.swap i j

@[simp] theorem exch_left (h : ℕ → α) (i j : ℕ) : exch h i j i = h j := by
  simp [exch]

@[simp] theorem exch_right (h : ℕ → α) (i j : ℕ) : exch h i j j = h i := by
  simp [exch]

theorem exch_of_ne {h : ℕ → α} {i j k : ℕ} (hi : k ≠ i) (hj : k ≠ j) : exch h i j k = h k := by
  simp [exch, Equiv.swap_apply_of_ne_of_ne hi hj]

/-- The same entries, those from `n` on in their places. -/
def Rearranged (n : ℕ) (h h' : ℕ → α) : Prop :=
  ∃ σ : Equiv.Perm ℕ, (∀ i, n ≤ i → σ i = i) ∧ h' = h ∘ σ

namespace Rearranged

variable {n : ℕ} {h h' h'' : ℕ → α}

theorem refl (n : ℕ) (h : ℕ → α) : Rearranged n h h := ⟨Equiv.refl ℕ, fun _ _ => rfl, rfl⟩

theorem trans (h1 : Rearranged n h h') (h2 : Rearranged n h' h'') : Rearranged n h h'' := by
  obtain ⟨σ, hσ, rfl⟩ := h1
  obtain ⟨τ, hτ, rfl⟩ := h2
  exact ⟨τ.trans σ, fun i hi => by simp [hτ i hi, hσ i hi], rfl⟩

theorem exch {i j : ℕ} (hi : i < n) (hj : j < n) : Rearranged n h (exch h i j) := by
  refine ⟨Equiv.swap i j, fun k hk => ?_, rfl⟩
  exact Equiv.swap_apply_of_ne_of_ne (by omega) (by omega)

theorem perm_lt {σ : Equiv.Perm ℕ} (hσ : ∀ i, n ≤ i → σ i = i) {i : ℕ} (hi : i < n) : σ i < n := by
  by_contra hge
  have := σ.injective (hσ (σ i) (Nat.le_of_not_lt hge))
  omega

theorem symm_fix {σ : Equiv.Perm ℕ} (hσ : ∀ i, n ≤ i → σ i = i) (i : ℕ) (hi : n ≤ i) : σ.symm i = i := by
  rw [Equiv.symm_apply_eq, hσ i hi]

theorem exists_lt (hr : Rearranged n h h') {x : α} : (∃ i < n, h' i = x) ↔ ∃ i < n, h i = x := by
  obtain ⟨σ, hσ, rfl⟩ := hr
  constructor
  · rintro ⟨i, hi, rfl⟩
    exact ⟨σ i, perm_lt hσ hi, rfl⟩
  · rintro ⟨i, hi, rfl⟩
    exact ⟨σ.symm i, perm_lt (symm_fix hσ) hi, by simp⟩

theorem bijOn {m : ℕ} {s : Set α} (hr : Rearranged n h h') (hm : n ≤ m)
    (hb : BijOn h (Iio m) s) : BijOn h' (Iio m) s := by
  obtain ⟨σ, hσ, rfl⟩ := hr
  have hσm : ∀ i, m ≤ i → σ i = i := fun i hi => hσ i (by omega)
  refine hb.comp ⟨fun i hi => perm_lt hσm hi, σ.injective.injOn, fun i hi => ?_⟩
  exact ⟨σ.symm i, perm_lt (symm_fix hσm) hi, by simp⟩

end Rearranged

/-! ## Order -/

section Order

variable [LinearOrder K] {key : α → K} {n : ℕ} {h : ℕ → α} {i : ℕ}

/-- No entry is before its parent. -/
def Ordered (key : α → K) (n : ℕ) (h : ℕ → α) : Prop :=
  ∀ j, 0 < j → j < n → key (h (parent j)) ≤ key (h j)

theorem Ordered.root_le (ho : Ordered key n h) : ∀ {j : ℕ}, j < n → key (h 0) ≤ key (h j) := by
  intro j
  induction j using Nat.strongRecOn with
  | _ j ih =>
    intro hj
    rcases Nat.eq_zero_or_pos j with rfl | hpos
    · exact le_refl _
    · exact le_trans (ih (parent j) (parent_lt hpos) (by have := parent_lt hpos; omega))
        (ho j hpos hj)

/-- The entries are in order, whatever is at `i`. -/
structure Hole (key : α → K) (n : ℕ) (h : ℕ → α) (i : ℕ) : Prop where
  off : ∀ j, 0 < j → j < n → j ≠ i → parent j ≠ i → key (h (parent j)) ≤ key (h j)
  grand : 0 < i → ∀ j, 0 < j → j < n → parent j = i → key (h (parent i)) ≤ key (h j)

def FitsBelow (key : α → K) (n : ℕ) (h : ℕ → α) (i : ℕ) : Prop :=
  ∀ j, 0 < j → j < n → parent j = i → key (h i) ≤ key (h j)

def FitsAbove (key : α → K) (h : ℕ → α) (i : ℕ) : Prop := 0 < i → key (h (parent i)) ≤ key (h i)

theorem Hole.ordered (hh : Hole key n h i) (hb : FitsBelow key n h i) (ha : FitsAbove key h i) :
    Ordered key n h := by
  intro j hpos hj
  by_cases hji : j = i
  · exact hji ▸ ha (hji ▸ hpos)
  · by_cases hp : parent j = i
    · exact hp ▸ hb j hpos hj hp
    · exact hh.off j hpos hj hji hp

theorem Ordered.hole {h' : ℕ → α} {key' : α → K} (ho : Ordered key n h)
    (heq : ∀ j < n, j ≠ i → key' (h' j) = key (h j)) (hi : i < n) : Hole key' n h' i where
  off := by
    intro j hpos hj hji hp
    have hlt := parent_lt hpos
    rw [heq j hj hji, heq (parent j) (by omega) hp]
    exact ho j hpos hj
  grand := by
    intro hpos j hjpos hj hp
    have hlt := parent_lt hpos
    have hlt' := parent_lt hjpos
    rw [heq j hj (by omega), heq (parent i) (by omega) (by omega)]
    have h1 := ho j hjpos hj
    rw [hp] at h1
    exact le_trans (ho i hpos hi) h1

theorem Hole.up (hh : Hole key n h i) (hpos : 0 < i) (hi : i < n)
    (hlt : key (h i) < key (h (parent i))) :
    Hole key n (exch h (parent i) i) (parent i) ∧ FitsBelow key n (exch h (parent i) i) (parent i) := by
  have hp := parent_lt hpos
  refine ⟨⟨fun j hj0 hj hj1 hj2 => ?_, fun hp0 j hj0 hj hjp => ?_⟩, fun j hj0 hj hjp => ?_⟩
  · have hji : j ≠ i := by
      rintro rfl
      exact hj2 rfl
    rw [exch_of_ne hj1 hji]
    by_cases hpi : parent j = i
    · rw [hpi, exch_right]
      exact hh.grand hpos j hj0 hj hpi
    · rw [exch_of_ne hj2 hpi]
      exact hh.off j hj0 hj hji hpi
  · have hpp := parent_lt hp0
    have habove := hh.off (parent i) hp0 (by omega) (by omega) (by omega)
    rw [exch_of_ne (by omega) (by omega)]
    by_cases hji : j = i
    · rwa [hji, exch_right]
    · have hjlt := parent_lt hj0
      rw [exch_of_ne (by omega) hji]
      have := hh.off j hj0 hj hji (by omega)
      rw [hjp] at this
      exact le_trans habove this
  · rw [exch_left]
    by_cases hji : j = i
    · rw [hji, exch_right]
      exact le_of_lt hlt
    · have hjlt := parent_lt hj0
      rw [exch_of_ne (by omega) hji]
      have := hh.off j hj0 hj hji (by omega)
      rw [hjp] at this
      exact le_trans (le_of_lt hlt) this

theorem Hole.down {c : ℕ} (hh : Hole key n h i) (hc0 : 0 < c) (hc : c < n)
    (hp : parent c = i) (hmin : ∀ j, 0 < j → j < n → parent j = i → key (h c) ≤ key (h j))
    (hlt : key (h c) < key (h i)) :
    Hole key n (exch h i c) c ∧ FitsAbove key (exch h i c) c := by
  have hci := parent_lt hc0
  refine ⟨⟨fun j hj0 hj hj1 hj2 => ?_, fun _ j hj0 hj hjp => ?_⟩, fun _ => ?_⟩
  · by_cases hji : j = i
    · -- the entry that went up, under the parent of the hole
      subst hji
      have hpj := parent_lt hj0
      rw [exch_left, exch_of_ne (by omega) (by omega)]
      exact hh.grand hj0 c hc0 hc hp
    rw [exch_of_ne hji hj1]
    by_cases hpi : parent j = i
    · rw [hpi, exch_left]
      exact hmin j hj0 hj hpi
    · rw [exch_of_ne hpi hj2]
      exact hh.off j hj0 hj hji hpi
  · have hjc := parent_lt hj0
    rw [hp, exch_left, exch_of_ne (by omega) (by omega)]
    have := hh.off j hj0 hj (by omega) (by omega)
    rwa [hjp] at this
  · rw [hp, exch_left, exch_right]
    exact le_of_lt hlt

end Order

/-! ## The two moves -/

section Sift

variable [LinearOrder K] (key : α → K) (n : ℕ)

/-- The entry at `i` goes up. The flag says that it reached the root. `i` turns are enough. -/
def siftUp : ℕ → (ℕ → α) → ℕ → (ℕ → α) × Bool
  | 0, h, _ => (h, true)
  | fuel + 1, h, i =>
    if i = 0 then (h, true)
    else if key (h (parent i)) ≤ key (h i) then (h, false)
    else siftUp fuel (exch h (parent i) i) (parent i)

/-- The entry at `i` goes down, among the first `n`. -/
def siftDown : ℕ → (ℕ → α) → ℕ → ℕ → α
  | 0, h, _ => h
  | fuel + 1, h, i =>
    if n ≤ left i then h
    else if right i < n ∧ key (h (right i)) < key (h (left i)) then
      if key (h i) ≤ key (h (right i)) then h
      else siftDown fuel (exch h i (right i)) (right i)
    else if key (h i) ≤ key (h (left i)) then h
    else siftDown fuel (exch h i (left i)) (left i)

variable {key n}

theorem siftUp_rearranged :
    ∀ {fuel : ℕ} {h : ℕ → α} {i : ℕ}, i < n → Rearranged n h (siftUp key fuel h i).1 := by
  intro fuel
  induction fuel with
  | zero => exact fun _ => .refl ..
  | succ fuel ih =>
    intro h i hi
    unfold siftUp
    split
    · exact .refl ..
    · split
      · exact .refl ..
      · have := parent_lt (Nat.pos_of_ne_zero ‹_›)
        exact (Rearranged.exch (by omega) hi).trans (ih (by omega))

theorem siftUp_ordered : ∀ {fuel : ℕ} {h : ℕ → α} {i : ℕ}, i < n → i ≤ fuel → Hole key n h i →
    FitsBelow key n h i → Ordered key n (siftUp key fuel h i).1 := by
  intro fuel
  induction fuel with
  | zero =>
    intro h i _ hf hh hb
    exact hh.ordered hb fun hpos => by omega
  | succ fuel ih =>
    intro h i hi hf hh hb
    unfold siftUp
    split
    · exact hh.ordered hb fun hpos => by omega
    split
    · exact hh.ordered hb fun _ => ‹_›
    · have hpos : 0 < i := Nat.pos_of_ne_zero ‹_›
      have hp := parent_lt hpos
      obtain ⟨hh', hb'⟩ := hh.up hpos hi (lt_of_not_ge ‹_›)
      exact ih (by omega) (by omega) hh' hb'

theorem siftUp_of_fits {fuel : ℕ} {h : ℕ → α} {i : ℕ} (hpos : 0 < i) (hf : i ≤ fuel)
    (ha : FitsAbove key h i) : siftUp key fuel h i = (h, false) := by
  obtain ⟨fuel, rfl⟩ := Nat.exists_eq_add_one_of_ne_zero (show fuel ≠ 0 by omega)
  unfold siftUp
  rw [if_neg (by omega), if_pos (ha hpos)]

theorem siftUp_of_not_fits {fuel : ℕ} {h : ℕ → α} {i : ℕ} (hf : i ≤ fuel)
    (ha : ¬ FitsAbove key h i) :
    0 < i ∧ key (h i) < key (h (parent i)) ∧
      siftUp key fuel h i = siftUp key (fuel - 1) (exch h (parent i) i) (parent i) := by
  obtain ⟨hpos, hlt⟩ := Classical.not_imp.1 ha
  obtain ⟨fuel, rfl⟩ := Nat.exists_eq_add_one_of_ne_zero (show fuel ≠ 0 by omega)
  refine ⟨hpos, lt_of_not_ge hlt, ?_⟩
  conv_lhs => unfold siftUp
  rw [if_neg (by omega), if_neg hlt, Nat.add_sub_cancel]

theorem siftUp_of_lt : ∀ {fuel : ℕ} {h : ℕ → α} {i k : ℕ}, i < k → (siftUp key fuel h i).1 k = h k := by
  intro fuel
  induction fuel with
  | zero => exact fun _ => rfl
  | succ fuel ih =>
    intro h i k hk
    unfold siftUp
    split
    · rfl
    · split
      · rfl
      · have hp := parent_lt (Nat.pos_of_ne_zero ‹_›)
        rw [ih (by omega), exch_of_ne (by omega) (by omega)]

theorem siftUp_zero (fuel : ℕ) (h : ℕ → α) : siftUp key fuel h 0 = (h, true) := by
  cases fuel <;> rfl

theorem siftUp_root : ∀ {fuel : ℕ} {h : ℕ → α} {i : ℕ}, i ≤ fuel →
    (siftUp key fuel h i).1 0 = if (siftUp key fuel h i).2 then h i else h 0 := by
  intro fuel
  induction fuel with
  | zero =>
    intro h i hf
    obtain rfl : i = 0 := by omega
    rfl
  | succ fuel ih =>
    intro h i hf
    unfold siftUp
    by_cases hi : i = 0
    · simp [hi]
    rw [if_neg hi]
    split
    · rfl
    · have hp := parent_lt (Nat.pos_of_ne_zero hi)
      by_cases hp0 : parent i = 0
      · rw [hp0, siftUp_zero]
        exact exch_left ..
      · rw [ih (by omega), exch_left, exch_of_ne (Ne.symm hp0) (Ne.symm hi)]

theorem siftDown_rearranged :
    ∀ {fuel : ℕ} {h : ℕ → α} {i : ℕ}, i < n → Rearranged n h (siftDown key n fuel h i) := by
  intro fuel
  induction fuel with
  | zero => exact fun _ => .refl ..
  | succ fuel ih =>
    intro h i hi
    unfold siftDown
    split
    · exact .refl ..
    split
    · split
      · exact .refl ..
      · exact (Rearranged.exch hi (by omega)).trans (ih (by omega))
    · split
      · exact .refl ..
      · exact (Rearranged.exch hi (by omega)).trans (ih (by omega))

theorem siftDown_ordered : ∀ {fuel : ℕ} {h : ℕ → α} {i : ℕ}, n - i ≤ fuel → Hole key n h i →
    FitsAbove key h i → Ordered key n (siftDown key n fuel h i) := by
  intro fuel
  induction fuel with
  | zero =>
    intro h i hf hh ha
    refine hh.ordered (fun j hpos hj hp => ?_) ha
    have := parent_lt hpos
    omega
  | succ fuel ih =>
    intro h i hf hh ha
    have hdown : ∀ c, 0 < c → c < n → parent c = i → (∀ j, 0 < j → j < n → parent j = i →
        key (h c) ≤ key (h j)) → ¬ key (h i) ≤ key (h c) →
        Ordered key n (siftDown key n fuel (exch h i c) c) := by
      intro c hc0 hc hp hmin hlt
      obtain ⟨hh', ha'⟩ := hh.down hc0 hc hp hmin (lt_of_not_ge hlt)
      have := parent_lt hc0
      exact ih (by omega) hh' ha'
    have hleft : 0 < left i ∧ parent (left i) = i := by
      unfold left parent
      omega
    have hright : 0 < right i ∧ parent (right i) = i := by
      unfold right parent
      omega
    unfold siftDown
    split
    · refine hh.ordered (fun j hpos hj hp => ?_) ha
      unfold left at *
      unfold parent at hp
      omega
    split
    · rename_i hr
      have hmin : ∀ j, 0 < j → j < n → parent j = i → key (h (right i)) ≤ key (h j) := by
        intro j hpos hj hp
        rcases (parent_eq_iff hpos).1 hp with rfl | rfl
        · exact le_of_lt hr.2
        · exact le_refl _
      split
      · exact hh.ordered (fun j hpos hj hp => le_trans ‹_› (hmin j hpos hj hp)) ha
      · exact hdown _ hright.1 hr.1 hright.2 hmin ‹_›
    · rename_i hl hr
      have hmin : ∀ j, 0 < j → j < n → parent j = i → key (h (left i)) ≤ key (h j) := by
        intro j hpos hj hp
        rcases (parent_eq_iff hpos).1 hp with rfl | rfl
        · exact le_refl _
        · exact le_of_not_gt fun hlt => hr ⟨hj, hlt⟩
      split
      · exact hh.ordered (fun j hpos hj hp => le_trans ‹_› (hmin j hpos hj hp)) ha
      · exact hdown _ hleft.1 (by omega) hleft.2 hmin ‹_›

theorem siftDown_of_lt : ∀ {fuel : ℕ} {h : ℕ → α} {i k : ℕ}, k < i → siftDown key n fuel h i k = h k := by
  intro fuel
  induction fuel with
  | zero => exact fun _ => rfl
  | succ fuel ih =>
    intro h i k hk
    have hl : i < left i := by
      unfold left
      omega
    have hr : i < right i := by
      unfold right
      omega
    unfold siftDown
    split
    · rfl
    split
    · split
      · rfl
      · rw [ih (by omega), exch_of_ne (by omega) (by omega)]
    · split
      · rfl
      · rw [ih (by omega), exch_of_ne (by omega) (by omega)]

end Sift

end Osol.Lib
