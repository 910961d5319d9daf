import Osol.Bignum.Basic

/-!
# Words

What the loops over words compute, in numbers: copies, comparisons, sums and differences.
-/

namespace Osol.Big

open Osol.Lib List BitVec

variable {h : ℕ}

@[simp] theorem toNat_zero : (0 : Chunk h).toNat = 0 := by simp

theorem toNat_one (hh : 0 < h) : (1 : Chunk h).toNat = 1 := by
  have : 1 < 2 ^ (2 * h) := Nat.one_lt_two_pow (by omega)
  simp [Nat.mod_eq_of_lt this]

/-! ## Leading zeros -/

theorem num_take_trimLen (lo : ℕ) (v : List (Chunk h)) : ∀ n ≤ v.length,
    num (v.take (trimLen lo v n)) = num (v.take n) := by
  intro n
  induction n with
  | zero => exact fun _ => rfl
  | succ n ih =>
    intro hn
    rw [trimLen]
    split_ifs with hz
    · have hlt : n < v.length := hn
      rw [ih (by omega), take_succ_eq_append_getElem hlt, num_concat]
      have h0 : v[n] = 0 := by rw [← hz.2, getD_eq_getElem _ _ hlt]
      rw [h0]
      simp
    · rfl

@[simp] theorem num_trim (v : List (Chunk h)) : num (trim v) = num v := by
  unfold trim
  rw [num_take_trimLen 1 v _ le_rfl, take_length]

theorem trimLen_le (lo : ℕ) (v : List (Chunk h)) (n : ℕ) : trimLen lo v n ≤ n := by
  induction n with
  | zero => exact le_rfl
  | succ n ih =>
    rw [trimLen]
    split <;> omega

/-- There is a word, and a leading zero only if it is the only one. -/
structure Trimmed (v : List (Chunk h)) : Prop where
  ne_nil : v ≠ []
  top : 1 < v.length → v.getD (v.length - 1) 0 ≠ 0

theorem trimLen_pos (v : List (Chunk h)) : ∀ {n : ℕ}, 0 < n → 0 < trimLen 1 v n
  | n + 1, _ => by
    rw [trimLen]
    split_ifs with hz
    · exact trimLen_pos v (by omega)
    · omega

theorem getD_trimLen (v : List (Chunk h)) (n : ℕ) (hn : 1 < trimLen 1 v n) :
    v.getD (trimLen 1 v n - 1) 0 ≠ 0 := by
  induction n with
  | zero => exact absurd hn (by simp [trimLen])
  | succ n ih =>
    rw [trimLen] at hn ⊢
    split at hn
    · rename_i hz
      rw [if_pos hz]
      exact ih hn
    · rename_i hz
      rw [if_neg hz]
      exact fun h0 => hz ⟨hn, h0⟩

variable {v : List (Chunk h)}

theorem trimmed_trim (hv : v ≠ []) : Trimmed (trim v) := by
  have hpos := trimLen_pos v (length_pos_iff.2 hv)
  have hle := trimLen_le 1 v v.length
  have hlen : (trim v).length = trimLen 1 v v.length := length_take_of_le hle
  refine ⟨length_pos_iff.1 (by omega), fun h1 => ?_⟩
  have htop := getD_trimLen v v.length (by omega)
  rw [hlen]
  unfold trim
  rwa [getD_eq_getElem?_getD, List.getElem?_take_of_lt (by omega), ← getD_eq_getElem?_getD]

theorem Trimmed.le_num_of_lt (hv : Trimmed v) (h1 : 1 < v.length) :
    (2 ^ (2 * h)) ^ (v.length - 1) ≤ num v := by
  have hlt : v.length - 1 < v.length := by omega
  have htop := hv.top h1
  rw [getD_eq_getElem _ _ hlt] at htop
  have hpos : 0 < (v[v.length - 1]).toNat :=
    Nat.pos_iff_ne_zero.2 fun hz => htop (eq_of_toNat_eq (by rw [hz]; rfl))
  have hsplit := num_take_add_drop v (Nat.le_of_lt hlt)
  rw [drop_eq_getElem_cons hlt, num_cons] at hsplit
  calc (2 ^ (2 * h)) ^ (v.length - 1) ≤ (2 ^ (2 * h)) ^ (v.length - 1) * (v[v.length - 1]).toNat :=
        Nat.le_mul_of_pos_right _ hpos
    _ ≤ num v := by
      rw [← hsplit]; exact (Nat.mul_le_mul_left _ (Nat.le_add_right _ _)).trans (Nat.le_add_left _ _)

theorem Trimmed.le_num (hv : Trimmed v) (h0 : num v ≠ 0) : (2 ^ (2 * h)) ^ (v.length - 1) ≤ num v := by
  by_cases h1 : 1 < v.length
  · exact hv.le_num_of_lt h1
  · rw [show v.length - 1 = 0 by omega, pow_zero]
    omega

theorem Trimmed.length_le_of_lt {k : ℕ} (hv : Trimmed v) (hk : 0 < k)
    (hlt : num v < (2 ^ (2 * h)) ^ k) : v.length ≤ k := by
  by_contra hgt
  have hle := (hv.le_num_of_lt (by omega)).trans_lt hlt
  exact hle.not_ge (Nat.pow_le_pow_right (Nat.two_pow_pos _) (by omega))

theorem Trimmed.length_le {v' : List (Chunk h)} (hv : Trimmed v) (hv' : v' ≠ [])
    (hle : num v ≤ num v') : v.length ≤ v'.length :=
  hv.length_le_of_lt (length_pos_iff.2 hv') (hle.trans_lt (num_lt v'))

theorem Trimmed.eq {v' : List (Chunk h)} (hv : Trimmed v) (hv' : Trimmed v')
    (heq : num v = num v') : v = v' :=
  num_injective (Nat.le_antisymm (hv.length_le hv'.ne_nil heq.le) (hv'.length_le hv.ne_nil heq.ge)) heq

theorem trimmed_singleton (d : Chunk h) : Trimmed [d] := ⟨by simp, fun h1 => absurd h1 (by simp)⟩

theorem trim_eq_singleton (hv : v ≠ []) (d : Chunk h) : trim v = [d] ↔ num v = d.toNat := by
  constructor
  · intro ht
    rw [← num_trim, ht, num_singleton]
  · intro hn
    exact (trimmed_trim hv).eq (trimmed_singleton d) (by rw [num_trim, hn, num_singleton])

/-! ## Comparisons -/

theorem any_pos (v : List (Chunk h)) : v.any (· > 0) = true ↔ 0 < num v := by
  induction v with
  | nil => simp
  | cons d v ih =>
    have hB := Nat.two_pow_pos (2 * h)
    rw [any_cons, Bool.or_eq_true, ih, decide_eq_true_iff, num_cons, gt_iff_lt, lt_def]
    rw [toNat_zero, Nat.add_pos_iff_pos_or_pos, Nat.mul_pos_iff_of_pos_left hB]

theorem compare_cons {B x y d e : ℕ} (hd : d < B) (he : e < B) :
    compare (d + B * x) (e + B * y) = (compare x y).then (compare d e) := by
  rcases Nat.lt_trichotomy x y with hlt | rfl | hgt
  · rw [Nat.compare_eq_lt.2 hlt]
    show _ = Ordering.lt
    rw [Nat.compare_eq_lt]
    have := Nat.mul_le_mul_left B (Nat.succ_le_of_lt hlt)
    rw [Nat.mul_succ] at this
    omega
  · rw [Nat.compare_eq_eq.2 rfl]
    show _ = compare d e
    rcases Nat.lt_trichotomy d e with hlt | rfl | hgt
    · rw [Nat.compare_eq_lt.2 hlt, Nat.compare_eq_lt]
      omega
    · rw [Nat.compare_eq_eq.2 rfl, Nat.compare_eq_eq.2 rfl]
    · rw [Nat.compare_eq_gt.2 hgt, Nat.compare_eq_gt]
      omega
  · rw [Nat.compare_eq_gt.2 hgt]
    show _ = Ordering.gt
    rw [Nat.compare_eq_gt]
    have := Nat.mul_le_mul_left B (Nat.succ_le_of_lt hgt)
    rw [Nat.mul_succ] at this
    omega

theorem cmpAbs_eq : ∀ a b : List (Chunk h), cmpAbs a b = compare (num a) (num b)
  | [], b => by
    simp only [cmpAbs, any_pos, num_nil]
    split_ifs with hb
    · exact (Nat.compare_eq_lt.2 hb).symm
    · exact (Nat.compare_eq_eq.2 (by omega)).symm
  | a :: aa, [] => by
    simp only [cmpAbs, any_pos, num_nil]
    split_ifs with ha
    · exact (Nat.compare_eq_gt.2 ha).symm
    · exact (Nat.compare_eq_eq.2 (by omega)).symm
  | a :: aa, b :: bb => by
    rw [cmpAbs, cmpAbs_eq aa bb, num_cons, num_cons, compare_cons a.isLt b.isLt]
    congr 1
    rcases Nat.lt_trichotomy a.toNat b.toNat with hlt | heq | hgt
    · rw [if_neg (by rw [gt_iff_lt, lt_def]; omega), if_pos (lt_def.2 hlt), Nat.compare_eq_lt.2 hlt]
    · rw [if_neg (by rw [gt_iff_lt, lt_def]; omega), if_neg (by rw [lt_def]; omega),
        Nat.compare_eq_eq.2 heq]
    · rw [if_pos (lt_def.2 hgt), Nat.compare_eq_gt.2 hgt]

section

variable (a b : List (Chunk h))
include a b

theorem cmpAbs_ne_lt : cmpAbs a b ≠ .lt ↔ num b ≤ num a := by
  rw [cmpAbs_eq, Ne, Nat.compare_eq_lt]
  omega

theorem cmpAbs_eq_lt : cmpAbs a b = .lt ↔ num a < num b := by
  rw [cmpAbs_eq, Nat.compare_eq_lt]

theorem cmpAbs_eq_gt : cmpAbs a b = .gt ↔ num b < num a := by
  rw [cmpAbs_eq, Nat.compare_eq_gt]

theorem cmpAbs_eq_eq : cmpAbs a b = .eq ↔ num a = num b := by
  rw [cmpAbs_eq, Nat.compare_eq_eq]

end

/-! ## Sums -/

/-- A carry. -/
def IsBit (c : Chunk h) : Prop := c.toNat = 0 ∨ c.toNat = 1

variable {a cy : Chunk h}

theorem add_carry {b : Chunk h} (hcy : IsBit cy) (hh : 0 < h) :
    ∃ cy' : Chunk h, (if a + b + cy > a then 0 else if a + b + cy < a then 1 else cy) = cy' ∧
      IsBit cy' ∧ (a + b + cy).toNat + 2 ^ (2 * h) * cy'.toNat = a.toNat + b.toNat + cy.toNat := by
  have h1 := toNat_one hh
  refine ⟨_, rfl, ?_⟩
  have hsum : (a + b + cy).toNat = (a.toNat + b.toNat + cy.toNat) % 2 ^ (2 * h) := by
    rw [toNat_add, toNat_add, Nat.mod_add_mod]
  generalize hn : a.toNat + b.toNat + cy.toNat = n at hsum ⊢
  have hmod : n % 2 ^ (2 * h) = n ∨ 2 ^ (2 * h) ≤ n ∧ n % 2 ^ (2 * h) = n - 2 ^ (2 * h) := by
    rcases Nat.lt_or_ge n (2 ^ (2 * h)) with hlt | hge
    · exact .inl (Nat.mod_eq_of_lt hlt)
    · refine .inr ⟨hge, ?_⟩
      rw [Nat.mod_eq_sub_mod hge, Nat.mod_eq_of_lt (by rcases hcy with hc | hc <;> omega)]
  simp only [gt_iff_lt, lt_def]
  split_ifs with hgt hlt
  · refine ⟨.inl toNat_zero, ?_⟩
    rw [toNat_zero]
    rcases hcy with hc | hc <;> omega
  · refine ⟨.inr h1, ?_⟩
    rw [h1]
    rcases hcy with hc | hc <;> omega
  · refine ⟨hcy, ?_⟩
    rcases hcy with hc | hc <;> rw [hc] <;> omega

theorem add_carry_zero (hcy : IsBit cy) (hh : 0 < h) :
    ∃ cy' : Chunk h, (if a + cy ≥ a then 0 else cy) = cy' ∧ IsBit cy' ∧
      (a + cy).toNat + 2 ^ (2 * h) * cy'.toNat = a.toNat + cy.toNat := by
  obtain ⟨cy', heq, hbit, hsum⟩ := add_carry hcy hh
  rw [show a + 0 = a from BitVec.add_zero a, toNat_zero, Nat.add_zero] at hsum
  refine ⟨_, rfl, ?_⟩
  simp only [ge_iff_le, le_def]
  split_ifs with hge
  · refine ⟨.inl toNat_zero, ?_⟩
    rw [toNat_zero]
    rcases hbit with hc | hc <;> rw [hc] at hsum <;> rcases hcy with hd | hd <;> omega
  · refine ⟨hcy, ?_⟩
    rcases hbit with hc | hc <;> rw [hc] at hsum <;> rcases hcy with hd | hd <;> rw [hd] at hsum ⊢ <;> omega

theorem addCarry_spec (hh : 0 < h) (c : List (Chunk h)) : ∀ cy, IsBit cy →
    (addCarry c cy).1.length = c.length ∧ IsBit (addCarry c cy).2 ∧
      num (addCarry c cy).1 + (2 ^ (2 * h)) ^ c.length * (addCarry c cy).2.toNat = num c + cy.toNat := by
  induction c with
  | nil => exact fun cy hcy => ⟨rfl, hcy, by simp [addCarry]⟩
  | cons a c ih =>
    intro cy hcy
    obtain ⟨cy', heq, hbit, hsum⟩ := add_carry_zero hcy hh
    obtain ⟨hlen, hbit', hnum⟩ := ih cy' hbit
    rw [addCarry]
    rw [heq]
    refine ⟨by rw [length_cons, length_cons, hlen], hbit', ?_⟩
    rw [num_cons, num_cons, length_cons, pow_succ']
    linear_combination hsum + 2 ^ (2 * h) * hnum

theorem addVec_spec (hh : 0 < h) : ∀ (a b : List (Chunk h)) (cy : Chunk h), IsBit cy →
    (addVec a b cy).1.length = max a.length b.length ∧ IsBit (addVec a b cy).2 ∧
      num (addVec a b cy).1 + (2 ^ (2 * h)) ^ max a.length b.length * (addVec a b cy).2.toNat =
        num a + num b + cy.toNat
  | [], b, cy, hcy => by
    have := addCarry_spec hh b cy hcy
    rw [addVec]
    simpa using this
  | a :: aa, [], cy, hcy => by
    have := addCarry_spec hh (a :: aa) cy hcy
    rw [addVec]
    · simpa using this
    · exact nofun
  | a :: aa, b :: bb, cy, hcy => by
    obtain ⟨cy', heq, hbit, hsum⟩ := add_carry hcy hh
    obtain ⟨hlen, hbit', hnum⟩ := addVec_spec hh aa bb cy' hbit
    rw [addVec]
    dsimp only
    rw [heq]
    have hmax : max (a :: aa).length (b :: bb).length = max aa.length bb.length + 1 := by
      simp only [length_cons]
      omega
    refine ⟨by rw [length_cons, hlen, hmax], hbit', ?_⟩
    rw [num_cons, num_cons, num_cons, hmax, pow_succ']
    linear_combination hsum + 2 ^ (2 * h) * hnum

theorem bigAddAbs_abs (hh : 0 < h) (aa bb : Bignum h) : (bigAddAbs aa bb).abs = aa.abs + bb.abs := by
  obtain ⟨hlen, hbit, hnum⟩ := addVec_spec hh aa.value bb.value 0 (.inl toNat_zero)
  rw [toNat_zero, Nat.add_zero, ← hlen] at hnum
  unfold bigAddAbs Bignum.abs
  dsimp only
  split_ifs with h1
  · rwa [num_concat]
  · rcases hbit with h0 | h1'
    · rwa [h0, Nat.mul_zero, Nat.add_zero] at hnum
    · exact absurd (eq_of_toNat_eq (h1'.trans (toNat_one hh).symm)) h1

/-! ## Differences -/

theorem toNat_not (b : Chunk h) : (~~~b).toNat = 2 ^ (2 * h) - 1 - b.toNat := BitVec.toNat_not

theorem sub_carry {b : Chunk h} (hcy : IsBit cy) (hh : 0 < h) :
    ∃ cy' : Chunk h, (if a + ~~~b + cy > a then 0 else if a + ~~~b + cy < a then 1 else cy) = cy' ∧
    IsBit cy' ∧
      (a + ~~~b + cy).toNat + b.toNat + 2 ^ (2 * h) * cy'.toNat + 1 = a.toNat + cy.toNat + 2 ^ (2 * h) := by
  obtain ⟨cy', heq, hbit, hsum⟩ := add_carry hcy hh
  refine ⟨cy', heq, hbit, ?_⟩
  rw [toNat_not] at hsum
  omega

theorem sub_carry_zero (hcy : IsBit cy) (hh : 0 < h) :
    ∃ cy' : Chunk h, (if a + ~~~0 + cy < a then 1 else cy) = cy' ∧ IsBit cy' ∧
      (a + ~~~0 + cy).toNat + 2 ^ (2 * h) * cy'.toNat + 1 = a.toNat + cy.toNat + 2 ^ (2 * h) := by
  obtain ⟨cy', heq, hbit, hsum⟩ := sub_carry (a := a) hcy hh
  rw [toNat_zero, Nat.add_zero] at hsum
  refine ⟨_, rfl, ?_⟩
  simp only [lt_def]
  split_ifs with hlt
  · refine ⟨.inr (toNat_one hh), ?_⟩
    rw [toNat_one hh]
    rcases hbit with hc | hc <;> rw [hc] at hsum <;> rcases hcy with hd | hd <;> omega
  · refine ⟨hcy, ?_⟩
    rcases hbit with hc | hc <;> rw [hc] at hsum <;> rcases hcy with hd | hd <;> rw [hd] at hsum ⊢ <;> omega

theorem subBorrow_spec (hh : 0 < h) (a : List (Chunk h)) : ∀ cy, IsBit cy →
    (subBorrow a cy).1.length = a.length ∧ IsBit (subBorrow a cy).2 ∧
      num (subBorrow a cy).1 + (2 ^ (2 * h)) ^ a.length * (subBorrow a cy).2.toNat + 1 =
        num a + cy.toNat + (2 ^ (2 * h)) ^ a.length := by
  induction a with
  | nil => exact fun cy hcy => ⟨rfl, hcy, by simp [subBorrow]⟩
  | cons x a ih =>
    intro cy hcy
    obtain ⟨cy', heq, hbit, hsum⟩ := sub_carry_zero hcy hh
    obtain ⟨hlen, hbit', hnum⟩ := ih cy' hbit
    rw [subBorrow]
    rw [heq]
    refine ⟨by rw [length_cons, length_cons, hlen], hbit', ?_⟩
    rw [num_cons, num_cons, length_cons, pow_succ']
    linear_combination hsum + 2 ^ (2 * h) * hnum

theorem subVec_spec (hh : 0 < h) : ∀ (a b : List (Chunk h)) (cy : Chunk h), IsBit cy →
    b.length ≤ a.length → (subVec a b cy).1.length = a.length ∧ IsBit (subVec a b cy).2 ∧
      num (subVec a b cy).1 + num b + (2 ^ (2 * h)) ^ a.length * (subVec a b cy).2.toNat + 1 =
        num a + cy.toNat + (2 ^ (2 * h)) ^ a.length
  | a, [], cy, hcy, _ => by
    have := subBorrow_spec hh a cy hcy
    have heq : subVec a [] cy = subBorrow a cy := by cases a <;> rw [subVec]
    rw [heq]
    simpa using this
  | [], b :: bb, cy, hcy, hle => absurd hle (by simp)
  | a :: aa, b :: bb, cy, hcy, hle => by
    obtain ⟨cy', heq, hbit, hsum⟩ := sub_carry hcy hh
    obtain ⟨hlen, hbit', hnum⟩ := subVec_spec hh aa bb cy' hbit (by simpa using hle)
    rw [subVec]
    dsimp only
    rw [heq]
    refine ⟨by rw [length_cons, hlen, length_cons], hbit', ?_⟩
    rw [num_cons, num_cons, num_cons, length_cons, pow_succ']
    linear_combination hsum + 2 ^ (2 * h) * hnum

theorem subVec_take : ∀ (a b : List (Chunk h)) (cy : Chunk h), subVec a (b.take a.length) cy = subVec a b cy
  | [], [], _ => rfl
  | [], _ :: _, _ => by simp [subVec, subBorrow]
  | _ :: _, [], _ => rfl
  | a :: aa, b :: bb, cy => by rw [length_cons, take_succ_cons, subVec, subVec, subVec_take aa bb]

theorem num_take_of_lt {n : ℕ} (hlt : num v < (2 ^ (2 * h)) ^ n) : num (v.take n) = num v := by
  by_cases hn : n ≤ v.length
  · have hsplit := num_take_add_drop v hn
    have hzero : num (v.drop n) = 0 := by
      by_contra h0
      have := Nat.le_mul_of_pos_right ((2 ^ (2 * h)) ^ n) (Nat.pos_of_ne_zero h0)
      omega
    rwa [hzero, Nat.mul_zero, Nat.add_zero] at hsplit
  · rw [take_of_length_le (by omega)]

theorem subVec_num (hh : 0 < h) {a b : List (Chunk h)} (hle : num b ≤ num a) :
    (subVec a b 1).1.length = a.length ∧ (subVec a b 1).2 ≠ 0 ∧ num (subVec a b 1).1 = num a - num b := by
  have hb : num (b.take a.length) = num b := num_take_of_lt (hle.trans_lt (num_lt a))
  obtain ⟨hlen, hbit, hnum⟩ := subVec_spec hh a (b.take a.length) 1 (.inr (toNat_one hh))
    (by rw [length_take]; exact Nat.min_le_left _ _)
  rw [subVec_take, hb, toNat_one hh] at hnum
  rw [subVec_take] at hlen hbit
  have hlt := num_lt (subVec a b 1).1
  rw [hlen] at hlt
  rcases hbit with h0 | h1
  · rw [h0] at hnum
    omega
  · rw [h1] at hnum
    refine ⟨hlen, fun h0 => ?_, by omega⟩
    rw [h0, toNat_zero] at h1
    omega

theorem bigSubPos_spec (hh : 0 < h) {aa bb : Bignum h} (hle : bb.abs ≤ aa.abs) :
    ∃ r, bigSubPos aa bb = some r ∧ r.sign = 1 ∧ r.len = aa.len ∧ r.abs = aa.abs - bb.abs := by
  obtain ⟨hlen, hcy, hnum⟩ := subVec_num hh hle
  refine ⟨⟨1, (subVec aa.value bb.value 1).1⟩, ?_, rfl, hlen, hnum⟩
  unfold bigSubPos
  rw [if_neg hcy]

end Osol.Big
