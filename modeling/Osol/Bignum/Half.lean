import Osol.Bignum.Vec

/-!
# Halves of words

Shifts, and products with half a word, which are made of products of halves so that they do not
overflow a word.
-/

namespace Osol.Big

open Osol.Lib List BitVec Nat

variable {h : ℕ}

/-! ## Halves -/

theorem two_pow_two_mul (h : ℕ) : 2 ^ (2 * h) = 2 ^ h * 2 ^ h := by
  rw [Nat.two_mul, pow_add]

variable (x : Chunk h)

theorem toNat_low : (x &&& lowhalfbits).toNat = x.toNat % 2 ^ h := by
  have hlt : 2 ^ h - 1 < 2 ^ (2 * h) := by
    have := Nat.pow_le_pow_right (n := 2) (by decide) (show h ≤ 2 * h by omega)
    have := Nat.two_pow_pos h
    omega
  rw [lowhalfbits, toNat_and, toNat_ofNat, mod_eq_of_lt hlt, and_two_pow_sub_one_eq_mod]

theorem toNat_shr (n : ℕ) : (x >>> n).toNat = x.toNat / 2 ^ n := by
  rw [toNat_ushiftRight, shiftRight_eq_div_pow]

theorem toNat_shl (n : ℕ) : (x <<< n).toNat = x.toNat * 2 ^ n % 2 ^ (2 * h) := by
  rw [toNat_shiftLeft, Nat.shiftLeft_eq]

theorem high_lt : (x >>> h).toNat < 2 ^ h := by
  rw [toNat_shr]
  have := x.isLt
  rw [two_pow_two_mul] at this
  exact Nat.div_lt_of_lt_mul this

theorem toNat_shl_half (y : Chunk h) : (y <<< h).toNat = 2 ^ h * (y.toNat % 2 ^ h) := by
  rw [toNat_shl, two_pow_two_mul, Nat.mul_comm, mul_mod_mul_left]

theorem toNat_or_shl {x y : Chunk h} {n : ℕ} (hx : x.toNat < 2 ^ n) :
    ((y <<< n) ||| x).toNat = (y <<< n).toNat + x.toNat := by
  by_cases hn : n ≤ 2 * h
  · obtain ⟨z, hz⟩ : 2 ^ n ∣ (y <<< n).toNat := by
      rw [toNat_shl]
      exact (dvd_mod_iff (Nat.pow_dvd_pow 2 hn)).2 (Nat.dvd_mul_left _ _)
    rw [toNat_or, hz, two_pow_add_eq_or_of_lt hx]
  · have h0 : (y <<< n).toNat = 0 := by
      rw [toNat_shl]
      exact mod_eq_zero_of_dvd (Dvd.dvd.mul_left (Nat.pow_dvd_pow 2 (by omega)) _)
    rw [toNat_or, h0, Nat.zero_or, Nat.zero_add]

theorem toNat_low_or_shl (x y : Chunk h) :
    ((x &&& lowhalfbits) ||| (y <<< h)).toNat = x.toNat % 2 ^ h + 2 ^ h * (y.toNat % 2 ^ h) := by
  rw [BitVec.or_comm, toNat_or_shl (by rw [toNat_low]; exact mod_lt _ (Nat.two_pow_pos h)),
    toNat_low, toNat_shl_half, Nat.add_comm]

variable {b : Chunk h}

theorem toNat_mul_half {a c : Chunk h} (ha : a.toNat < 2 ^ h) (hb : b.toNat < 2 ^ h)
    (hc : c.toNat < 2 ^ h) : (a * b + c).toNat = a.toNat * b.toNat + c.toNat := by
  have hlt : a.toNat * b.toNat + c.toNat < 2 ^ (2 * h) := by
    rw [two_pow_two_mul]
    nlinarith
  have hlt' : a.toNat * b.toNat < 2 ^ (2 * h) := by omega
  rw [toNat_add, toNat_mul, mod_eq_of_lt hlt', mod_eq_of_lt hlt]

/-! ## Shifts -/

variable {offs : ℕ}

theorem shlVec_spec (ho : offs < 2 * h) (a : List (Chunk h)) : ∀ cy : Chunk h, cy.toNat < 2 ^ offs →
    (shlVec offs a cy).1.length = a.length ∧ (shlVec offs a cy).2.toNat < 2 ^ offs ∧
      num (shlVec offs a cy).1 + (2 ^ (2 * h)) ^ a.length * (shlVec offs a cy).2.toNat =
        num a * 2 ^ offs + cy.toNat := by
  induction a with
  | nil => exact fun cy hcy => ⟨rfl, hcy, by simp [shlVec]⟩
  | cons x a ih =>
    intro cy hcy
    have hB : 2 ^ (2 * h) = 2 ^ (2 * h - offs) * 2 ^ offs := by rw [← pow_add, Nat.sub_add_cancel ho.le]
    have hhigh : (x >>> (2 * h - offs)).toNat < 2 ^ offs := by
      rw [toNat_shr]
      have := x.isLt
      rw [hB] at this
      exact Nat.div_lt_of_lt_mul this
    obtain ⟨hlen, hlt, hnum⟩ := ih _ hhigh
    rw [shlVec]
    refine ⟨by rw [length_cons, length_cons, hlen], hlt, ?_⟩
    have hword : ((x <<< offs) ||| cy).toNat + 2 ^ (2 * h) * (x >>> (2 * h - offs)).toNat =
        x.toNat * 2 ^ offs + cy.toNat := by
      rw [toNat_or_shl hcy, toNat_shl, toNat_shr, hB, mul_mod_mul_right]
      have := mod_add_div x.toNat (2 ^ (2 * h - offs))
      calc x.toNat % 2 ^ (2 * h - offs) * 2 ^ offs + cy.toNat +
            2 ^ (2 * h - offs) * 2 ^ offs * (x.toNat / 2 ^ (2 * h - offs))
          = (x.toNat % 2 ^ (2 * h - offs) + 2 ^ (2 * h - offs) * (x.toNat / 2 ^ (2 * h - offs))) *
            2 ^ offs +
              cy.toNat := by ring
        _ = x.toNat * 2 ^ offs + cy.toNat := by rw [this]
    rw [num_cons, num_cons, length_cons, Nat.pow_succ']
    linear_combination hword + 2 ^ (2 * h) * hnum

theorem num_bigShiftleft (ho : offs < 2 * h) (a : List (Chunk h)) :
    num (bigShiftleft a offs) = num a * 2 ^ offs := by
  unfold bigShiftleft
  split
  · rename_i h0
    rw [num_trim, h0, pow_zero, Nat.mul_one]
  obtain ⟨hlen, -, hnum⟩ := shlVec_spec ho a 0 (by rw [toNat_zero]; exact Nat.two_pow_pos _)
  rw [toNat_zero, Nat.add_zero, ← hlen] at hnum
  dsimp only
  split
  · rwa [num_concat]
  · rename_i hz
    rwa [not_not.1 hz, toNat_zero, Nat.mul_zero, Nat.add_zero] at hnum

theorem trimmed_concat {v : List (Chunk h)} {d : Chunk h} (hd : d ≠ 0) : Trimmed (v ++ [d]) := by
  refine ⟨by simp, fun _ => ?_⟩
  simpa using hd

theorem trimmed_of_le_num {v : List (Chunk h)} (hv : v ≠ [])
    (hle : (2 ^ (2 * h)) ^ (v.length - 1) ≤ num v) :
    Trimmed v := by
  refine ⟨hv, fun h1 h0 => ?_⟩
  have hlt : v.length - 1 < v.length := by omega
  have hsplit := num_take_add_drop v hlt.le
  rw [getD_eq_getElem _ _ hlt] at h0
  rw [drop_eq_getElem_cons hlt, h0, num_cons, toNat_zero,
    drop_eq_nil_of_le (show v.length ≤ v.length - 1 + 1 by omega)] at hsplit
  have hbound := num_lt (v.take (v.length - 1))
  rw [length_take_of_le hlt.le] at hbound
  simp only [num_nil, Nat.mul_zero, Nat.add_zero] at hsplit
  omega

theorem trimmed_bigShiftleft (ho : offs < 2 * h) {a : List (Chunk h)} (ha : Trimmed a) :
    Trimmed (bigShiftleft a offs) := by
  have hnum := num_bigShiftleft ho a
  unfold bigShiftleft at hnum ⊢
  split at hnum
  · rw [if_pos ‹_›]
    exact trimmed_trim ha.ne_nil
  rw [if_neg ‹_›]
  obtain ⟨hlen, -, -⟩ := shlVec_spec ho a 0 (by rw [toNat_zero]; exact Nat.two_pow_pos _)
  dsimp only at hnum ⊢
  split at hnum
  · rename_i hz
    rw [if_pos hz]
    exact trimmed_concat hz
  rename_i hz
  rw [if_neg hz]
  have hpos := length_pos_iff.2 ha.ne_nil
  have hne : (shlVec offs a 0).1 ≠ [] := length_pos_iff.1 (by omega)
  by_cases h1 : 1 < a.length
  · refine trimmed_of_le_num hne ?_
    have h0 : num a ≠ 0 := fun h0 => by
      have := ha.length_le (trimmed_singleton (0 : Chunk h)).ne_nil (by rw [h0]; exact Nat.zero_le _)
      simp only [length_singleton] at this
      omega
    rw [hlen, hnum]
    exact (ha.le_num h0).trans (Nat.le_mul_of_pos_right _ (Nat.two_pow_pos offs))
  · exact ⟨hne, fun h' => by omega⟩

theorem shrVec_spec (ho : offs ≤ 2 * h) (a : List (Chunk h)) : ∀ cy :
    Chunk h, cy.toNat < 2 ^ (2 * h - offs) →
    (shrVec offs a cy).length = a.length + 1 ∧
    num (shrVec offs a cy) = cy.toNat + 2 ^ (2 * h - offs) * num a := by
  induction a with
  | nil => exact fun cy hcy => ⟨rfl, by simp [shrVec, num_singleton]⟩
  | cons x a ih =>
    intro cy hcy
    have hB : 2 ^ (2 * h) = 2 ^ offs * 2 ^ (2 * h - offs) := by rw [← pow_add, Nat.add_sub_cancel' ho]
    have hhigh : (x >>> offs).toNat < 2 ^ (2 * h - offs) := by
      rw [toNat_shr]
      have := x.isLt
      rw [hB] at this
      exact Nat.div_lt_of_lt_mul this
    obtain ⟨hlen, hnum⟩ := ih _ hhigh
    have hword : ((x <<< (2 * h - offs)) ||| cy).toNat + 2 ^ (2 * h) * (x >>> offs).toNat =
        x.toNat * 2 ^ (2 * h - offs) + cy.toNat := by
      rw [toNat_or_shl hcy, toNat_shl, toNat_shr, hB, mul_mod_mul_right]
      have := mod_add_div x.toNat (2 ^ offs)
      calc x.toNat % 2 ^ offs * 2 ^ (2 * h - offs) + cy.toNat +
        2 ^ offs * 2 ^ (2 * h - offs) * (x.toNat / 2 ^ offs)
          = (x.toNat % 2 ^ offs + 2 ^ offs * (x.toNat / 2 ^ offs)) * 2 ^ (2 * h - offs) +
          cy.toNat := by ring
        _ = x.toNat * 2 ^ (2 * h - offs) + cy.toNat := by rw [this]
    rw [shrVec]
    refine ⟨by rw [length_cons, length_cons, hlen], ?_⟩
    rw [num_cons, num_cons, hnum]
    linear_combination hword

theorem bigShiftright_spec (ho : offs ≤ 2 * h) {a : List (Chunk h)} (ha : a ≠ []) (same : Bool)
    (hsame : offs = 0 → same = true) :
    ∃ r, bigShiftright same a offs = some r ∧ r.length = a.length ∧ num r = num a / 2 ^ offs := by
  unfold bigShiftright
  split
  · rename_i h0
    rw [hsame h0]
    exact ⟨a, rfl, rfl, by rw [h0, pow_zero, Nat.div_one]⟩
  match a, ha with
  | a0 :: a, _ =>
    have hB : 2 ^ (2 * h) = 2 ^ offs * 2 ^ (2 * h - offs) := by rw [← pow_add, Nat.add_sub_cancel' ho]
    have hhigh : (a0 >>> offs).toNat < 2 ^ (2 * h - offs) := by
      rw [toNat_shr]
      have := a0.isLt
      rw [hB] at this
      exact Nat.div_lt_of_lt_mul this
    obtain ⟨hlen, hnum⟩ := shrVec_spec ho a _ hhigh
    refine ⟨_, rfl, hlen, ?_⟩
    rw [hnum, num_cons, toNat_shr, hB, Nat.mul_assoc, add_mul_div_left _ _ (Nat.two_pow_pos offs)]

/-! ## Products with half a word -/

theorem mulhalf_word {a cy : Chunk h} (hb : b.toNat < 2 ^ h) (hcy : cy.toNat < 2 ^ h) :
    ∃ t1 t2 : Chunk h, (a &&& lowhalfbits) * b + cy = t1 ∧ (a >>> h) * b + (t1 >>> h) = t2 ∧
      t1.toNat % 2 ^ h + 2 ^ h * t2.toNat = a.toNat * b.toNat + cy.toNat := by
  refine ⟨_, _, rfl, rfl, ?_⟩
  have hlow : (a &&& lowhalfbits).toNat < 2 ^ h := by
    rw [toNat_low]
    exact mod_lt _ (Nat.two_pow_pos h)
  have h1 := toNat_mul_half hlow hb hcy
  have h2 := toNat_mul_half (high_lt a) hb (high_lt ((a &&& lowhalfbits) * b + cy))
  rw [h2, toNat_shr ((a &&& lowhalfbits) * b + cy), toNat_shr a]
  have h3 := mod_add_div ((a &&& lowhalfbits) * b + cy).toNat (2 ^ h)
  have h4 := mod_add_div a.toNat (2 ^ h)
  rw [toNat_low] at h1
  generalize ((a &&& lowhalfbits) * b + cy).toNat = t at *
  calc t % 2 ^ h + 2 ^ h * (a.toNat / 2 ^ h * b.toNat + t / 2 ^ h)
      = (t % 2 ^ h + 2 ^ h * (t / 2 ^ h)) + 2 ^ h * (a.toNat / 2 ^ h) * b.toNat := by ring
    _ = (a.toNat % 2 ^ h + 2 ^ h * (a.toNat / 2 ^ h)) * b.toNat + cy.toNat := by rw [h3, h1]; ring
    _ = a.toNat * b.toNat + cy.toNat := by rw [h4]

theorem mulhalfLow_spec (hb : b.toNat < 2 ^ h) (a : List (Chunk h)) : ∀ cy : Chunk h, cy.toNat < 2 ^ h →
    (mulhalfLow b a cy).length = a.length + 1 ∧ num (mulhalfLow b a cy) = num a * b.toNat + cy.toNat := by
  induction a with
  | nil => exact fun cy _ => ⟨rfl, by simp [mulhalfLow, num_singleton]⟩
  | cons x a ih =>
    intro cy hcy
    obtain ⟨t1, t2, h1, h2, hsum⟩ := mulhalf_word hb hcy
    rw [mulhalfLow, h1, h2]
    obtain ⟨hlen, hnum⟩ := ih (t2 >>> h) (high_lt t2)
    refine ⟨by rw [length_cons, length_cons, hlen], ?_⟩
    have h3 := mod_add_div t2.toNat (2 ^ h)
    rw [num_cons, num_cons, hnum, toNat_low_or_shl, toNat_shr, two_pow_two_mul]
    linear_combination hsum + 2 ^ h * h3

theorem mulhalfHigh_spec (hb : b.toNat < 2 ^ h) (a : List (Chunk h)) : ∀ cy ri : Chunk h,
    cy.toNat < 2 ^ h → ri.toNat < 2 ^ h →
    (mulhalfHigh b a cy ri).length = a.length + 1 ∧
      num (mulhalfHigh b a cy ri) = (num a * b.toNat + cy.toNat) * 2 ^ h + ri.toNat := by
  have hadd : ∀ x ri : Chunk h, ri.toNat < 2 ^ h →
    ((x <<< h) + ri).toNat = 2 ^ h * (x.toNat % 2 ^ h) + ri.toNat := by
    intro x ri hri
    rw [toNat_add, toNat_shl_half, mod_eq_of_lt]
    have := mod_lt x.toNat (Nat.two_pow_pos h)
    rw [two_pow_two_mul]
    nlinarith
  induction a with
  | nil =>
    intro cy ri hcy hri
    refine ⟨rfl, ?_⟩
    rw [mulhalfHigh, num_singleton, hadd _ _ hri, mod_eq_of_lt hcy]
    simp only [num_nil]
    ring
  | cons x a ih =>
    intro cy ri hcy hri
    obtain ⟨t1, t2, h1, h2, hsum⟩ := mulhalf_word hb hcy
    rw [mulhalfHigh, h1, h2]
    have hlow : (t2 &&& lowhalfbits).toNat < 2 ^ h := by
      rw [toNat_low]
      exact mod_lt _ (Nat.two_pow_pos h)
    obtain ⟨hlen, hnum⟩ := ih (t2 >>> h) (t2 &&& lowhalfbits) (high_lt t2) hlow
    refine ⟨by rw [length_cons, length_cons, hlen], ?_⟩
    have h3 := mod_add_div t2.toNat (2 ^ h)
    rw [num_cons, num_cons, hnum, hadd _ _ hri, toNat_shr, toNat_low, two_pow_two_mul]
    linear_combination 2 ^ h * hsum + 2 ^ h * 2 ^ h * h3

end Osol.Big
