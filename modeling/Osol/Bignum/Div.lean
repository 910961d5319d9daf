import Osol.Bignum.Half

/-!
# Division

`big_div_pos` divides: the divisor is shifted so that its highest word is half a word, a word of the
quotient comes in two halves, each estimated from the highest words and then corrected by
subtractions.
-/

namespace Osol.Big

open Osol.Lib List Option BitVec Nat

variable {h : ℕ}

/-! ## The highest words -/

variable {n : ℕ}

theorem radix_pow_pos (n : ℕ) : 0 < (2 ^ (2 * h)) ^ n := Nat.pow_pos (Nat.two_pow_pos _)

theorem num_drop (v : List (Chunk h)) (hn : n ≤ v.length) : num (v.drop n) = num v / (2 ^ (2 * h)) ^ n := by
  have hsplit := num_take_add_drop v hn
  have hlt := num_lt (v.take n)
  rw [length_take_of_le hn] at hlt
  rw [← hsplit, add_mul_div_left _ _ (radix_pow_pos _), div_eq_of_lt hlt, Nat.zero_add]

theorem toNat_getD (v : List (Chunk h)) (n : ℕ) :
    (v.getD n 0).toNat = num v / (2 ^ (2 * h)) ^ n % 2 ^ (2 * h) := by
  rcases Nat.lt_or_ge n v.length with hn | hn
  · rw [getD_eq_getElem _ _ hn, ← num_drop v hn.le, drop_eq_getElem_cons hn, num_cons,
      add_mul_mod_self_left, mod_eq_of_lt (isLt _)]
  · have hlt := (num_lt v).trans_le (Nat.pow_le_pow_right (Nat.two_pow_pos (2 * h)) hn)
    rw [getD_eq_default _ _ hn, toNat_zero, div_eq_of_lt hlt, zero_mod]

variable {v : List (Chunk h)}

theorem toNat_top (hv : v ≠ []) :
    (v.getD (v.length - 1) 0).toNat = num v / (2 ^ (2 * h)) ^ (v.length - 1) := by
  have hlen := length_pos_iff.2 hv
  rw [toNat_getD, mod_eq_of_lt]
  have := num_lt v
  rw [show v.length = v.length - 1 + 1 by omega, pow_succ] at this
  exact Nat.div_lt_of_lt_mul this

theorem num_dropLast (hlt : num v < (2 ^ (2 * h)) ^ (v.length - 1)) : num v.dropLast = num v := by
  rw [dropLast_eq_take]
  exact num_take_of_lt hlt

variable {b : List (Chunk h)}

theorem subPosHigh_spec (hh : 0 < h) {t : List (Chunk h)}
    (hle : num b * (2 ^ (2 * h)) ^ (t.length - b.length) ≤ num t) :
    (subPosHigh t b).length = t.length ∧
      num (subPosHigh t b) = num t - num b * (2 ^ (2 * h)) ^ (t.length - b.length) := by
  have hd : t.length - b.length ≤ t.length := sub_le _ _
  have hpos : 0 < (2 ^ (2 * h)) ^ (t.length - b.length) := radix_pow_pos _
  have hle' : num b ≤ num (t.drop (t.length - b.length)) := by
    rwa [num_drop t hd, Nat.le_div_iff_mul_le hpos]
  obtain ⟨hl, -, hnum⟩ := subVec_num hh hle'
  unfold subPosHigh
  refine ⟨by rw [length_append, hl, length_take_of_le hd, length_drop]; omega, ?_⟩
  have hsplit := num_take_add_drop t hd
  rw [num_append, hnum, length_take_of_le hd, Nat.mul_sub]
  have := Nat.mul_le_mul_left ((2 ^ (2 * h)) ^ (t.length - b.length)) hle'
  rw [Nat.mul_comm (num b)]
  omega

theorem cmpAbsHigh_ne_lt {t : List (Chunk h)} :
    cmpAbsHigh t b ≠ .lt ↔ num b * (2 ^ (2 * h)) ^ (t.length - b.length) ≤ num t := by
  unfold cmpAbsHigh
  rw [cmpAbs_ne_lt, num_drop t (sub_le _ _), Nat.le_div_iff_mul_le (radix_pow_pos _)]

/-! ## The loops of subtractions -/

theorem toNat_add_one (hh : 0 < h) {c : Chunk h} (hc : c.toNat + 1 < 2 ^ (2 * h)) :
    (c + 1).toNat = c.toNat + 1 := by
  rw [toNat_add, toNat_one hh, mod_eq_of_lt hc]

section Loops

variable {bb t : List (Chunk h)} {coeff : Chunk h} {lt E : ℕ} (hh : 0 < h)
  (hE : num bb * (2 ^ (2 * h)) ^ (lt - bb.length) = E) (hpos : 0 < E)
include hh hE hpos

theorem subPosHigh_step (ht : t.length = lt) (hge : E ≤ num t)
    (hc : coeff.toNat + num t / E < 2 ^ (2 * h)) :
    (subPosHigh t bb).length = lt ∧ num (subPosHigh t bb) % E = num t % E ∧
      num (subPosHigh t bb) / E + 1 = num t / E ∧ (coeff + 1).toNat = coeff.toNat + 1 := by
  obtain ⟨hl, hnum⟩ := subPosHigh_spec hh (b := bb) (by rw [ht, hE]; exact hge)
  rw [ht, hE] at hnum
  have hdiv : num (subPosHigh t bb) / E + 1 = num t / E := by rw [hnum, div_eq_sub_div hpos hge]
  have hone : 1 ≤ num t / E := hdiv ▸ Nat.le_add_left 1 _
  exact ⟨hl.trans ht, by rw [hnum, ← mod_eq_sub_mod hge], hdiv, toNat_add_one hh (by omega)⟩

theorem subWhileGe_spec :
    ∀ n t coeff, t.length = lt → num t / E < n → coeff.toNat + num t / E < 2 ^ (2 * h) →
      ∃ t' coeff', subWhileGe bb n t coeff = some (t', coeff') ∧ t'.length = lt ∧
        num t' = num t % E ∧ coeff'.toNat = coeff.toNat + num t / E := by
  intro n
  induction n with
  | zero => exact fun t coeff _ hn => absurd hn (Nat.not_lt_zero _)
  | succ n ih =>
    intro t coeff ht hn hc
    have hcmp : cmpAbsHigh t bb ≠ .lt ↔ E ≤ num t := by rw [cmpAbsHigh_ne_lt, ht, hE]
    rw [subWhileGe]
    by_cases hge : E ≤ num t
    · obtain ⟨hl, hmod, hdiv, hc1⟩ := subPosHigh_step hh hE hpos ht hge hc
      obtain ⟨t', coeff', heq, hl', hnum', hcoeff⟩ := ih _ (coeff + 1) hl (by omega) (by omega)
      exact ⟨t', coeff', by rw [if_pos (hcmp.2 hge)]; exact heq, hl', hnum'.trans hmod, by omega⟩
    · have hlt : num t < E := by omega
      rw [if_neg fun h' => hge (hcmp.1 h')]
      exact ⟨t, coeff, rfl, ht, (mod_eq_of_lt hlt).symm, by rw [div_eq_of_lt hlt, Nat.add_zero]⟩

theorem subWhileTop_spec (hle : E ≤ (2 ^ (2 * h)) ^ (lt - 1)) (hlt : 0 < lt) :
    ∀ n t coeff, t.length = lt → num t / E < n → coeff.toNat + num t / E < 2 ^ (2 * h) →
      ∃ t' coeff', subWhileTop bb n t coeff = some (t', coeff') ∧ t'.length = lt ∧
        num t' < (2 ^ (2 * h)) ^ (lt - 1) ∧ num t' % E = num t % E ∧
        coeff'.toNat + num t' / E = coeff.toNat + num t / E := by
  intro n
  induction n with
  | zero => exact fun t coeff _ hn => absurd hn (Nat.not_lt_zero _)
  | succ n ih =>
    intro t coeff ht hn hc
    have hne : t ≠ [] := length_pos_iff.1 (by omega)
    have htop : t.getD (t.length - 1) 0 > 0 ↔ (2 ^ (2 * h)) ^ (lt - 1) ≤ num t := by
      rw [gt_iff_lt, lt_def, toNat_zero, toNat_top hne, ht, Nat.div_pos_iff]
      exact and_iff_right (radix_pow_pos _)
    rw [subWhileTop]
    by_cases hge : (2 ^ (2 * h)) ^ (lt - 1) ≤ num t
    · obtain ⟨hl, hmod, hdiv, hc1⟩ := subPosHigh_step hh hE hpos ht (hle.trans hge) hc
      obtain ⟨t', coeff', heq, hl', hlt', hmod', hcoeff⟩ := ih _ (coeff + 1) hl (by omega) (by omega)
      exact ⟨t', coeff', by rw [if_pos (htop.2 hge)]; exact heq, hl', hlt', hmod'.trans hmod, by omega⟩
    · rw [if_neg fun h' => hge (htop.1 h')]
      exact ⟨t, coeff, rfl, ht, by omega, rfl, rfl⟩

end Loops

/-! ## One word of the quotient -/

theorem estimate {X F T Q H : ℕ} (hF : F < (T + 1) * Q) (hX : X < F * H) :
    X / Q / (T + 1) < H ∧ X / Q / (T + 1) * F ≤ X := by
  have hQ : 0 < Q := by
    rcases Nat.eq_zero_or_pos Q with h0 | h0
    · rw [h0] at hF
      omega
    · exact h0
  constructor
  · rw [Nat.div_div_eq_div_mul, Nat.div_lt_iff_lt_mul (Nat.mul_pos hQ (succ_pos T))]
    calc X < F * H := hX
      _ ≤ (T + 1) * Q * H := Nat.mul_le_mul_right H hF.le
      _ = H * (Q * (T + 1)) := by ring
  · calc X / Q / (T + 1) * F ≤ X / Q / (T + 1) * ((T + 1) * Q) := Nat.mul_le_mul_left _ hF.le
      _ = X / Q / (T + 1) * (T + 1) * Q := by ring
      _ ≤ X / Q * Q := Nat.mul_le_mul_right Q (div_mul_le_self _ _)
      _ ≤ X := div_mul_le_self _ _

theorem subPosHigh_multiple (hh : 0 < h) {t p : List (Chunk h)} {F c : ℕ} (hF : 0 < F)
    (hle : c * F ≤ num t) (hprod : num p * (2 ^ (2 * h)) ^ (t.length - p.length) = c * F) :
    (subPosHigh t p).length = t.length ∧ num (subPosHigh t p) % F = num t % F ∧
      c + num (subPosHigh t p) / F = num t / F := by
  obtain ⟨hl, hnum⟩ := subPosHigh_spec hh (hprod.trans_le hle)
  have hsum : num t = F * c + num (subPosHigh t p) := by
    rw [hnum, hprod, Nat.mul_comm F c]
    omega
  rw [hsum, mul_add_mod, mul_add_div hF]
  exact ⟨hl, rfl, rfl⟩

theorem lt_halves {X b s : ℕ} (hX : X < b * (2 ^ (2 * h)) ^ (s + 1)) :
    X < b * (2 ^ (2 * h)) ^ s * 2 ^ h * 2 ^ h := by
  rwa [Nat.mul_assoc, ← two_pow_two_mul, Nat.mul_assoc, ← pow_succ]

/-- A divisor that is shifted as `big_div_pos` does it, by itself and by half a word more. -/
structure Shifted (bblow bbhigh : List (Chunk h)) : Prop where
  ne_nil : bblow ≠ []
  top_pos : 0 < num bblow / (2 ^ (2 * h)) ^ (bblow.length - 1)
  top_lt : num bblow / (2 ^ (2 * h)) ^ (bblow.length - 1) < 2 ^ h
  high_len : bbhigh.length ≤ bblow.length
  high_num : num bbhigh * (2 ^ (2 * h)) ^ (bblow.length - bbhigh.length) = num bblow * 2 ^ h

section Step

variable {bblow bbhigh t : List (Chunk h)} {s : ℕ} (hs : Shifted bblow bbhigh)
include hs

theorem Shifted.lt_succ_mul : num bblow * (2 ^ (2 * h)) ^ s <
    (num bblow / (2 ^ (2 * h)) ^ (bblow.length - 1) + 1) * (2 ^ (2 * h)) ^ (bblow.length + s - 1) := by
  have hlen := length_pos_iff.2 hs.ne_nil
  have hpos : ∀ n, 0 < (2 ^ (2 * h)) ^ n := radix_pow_pos
  have hlt : num bblow < (num bblow / (2 ^ (2 * h)) ^ (bblow.length - 1) + 1) *
      (2 ^ (2 * h)) ^ (bblow.length - 1) := by
    rw [← Nat.div_lt_iff_lt_mul (hpos _)]
    exact lt_succ_self _
  rw [show bblow.length + s - 1 = bblow.length - 1 + s by omega, pow_add, ← Nat.mul_assoc]
  exact Nat.mul_lt_mul_of_pos_right hlt (hpos s)

theorem Shifted.toNat_highb_add_one (hh : 0 < h) : (bblow.getD (bblow.length - 1) 0 + 1).toNat =
    num bblow / (2 ^ (2 * h)) ^ (bblow.length - 1) + 1 := by
  have hlt := hs.top_lt
  have hH : 2 ^ h < 2 ^ (2 * h) := Nat.pow_lt_pow_right (by decide) (by omega)
  rw [toNat_add_one hh (by rw [toNat_top hs.ne_nil]; omega), toNat_top hs.ne_nil]

theorem Shifted.num_pos : 0 < num bblow := by
  rcases Nat.eq_zero_or_pos (num bblow) with h0 | h0
  · have := hs.top_pos
    rw [h0, Nat.zero_div] at this
    omega
  · exact h0

theorem Shifted.mul_pos : 0 < num bblow * (2 ^ (2 * h)) ^ s :=
  Nat.mul_pos hs.num_pos (radix_pow_pos _)

theorem divHalfLow_spec (hh : 0 < h) (hlt : t.length = bblow.length + s)
    (hX : num t < num bblow * (2 ^ (2 * h)) ^ s * 2 ^ h) :
    ∃ t' c, divHalfLow bblow t = some (t', c) ∧ t'.length = bblow.length + s ∧
      num t' = num t % (num bblow * (2 ^ (2 * h)) ^ s) ∧
      c.toNat = num t / (num bblow * (2 ^ (2 * h)) ^ s) := by
  have hlen := length_pos_iff.2 hs.ne_nil
  have htop : (t.getD (t.length - 1) 0).toNat = num t / (2 ^ (2 * h)) ^ (bblow.length + s - 1) := by
    rw [toNat_top (length_pos_iff.1 (by omega)), hlt]
  obtain ⟨hcoeff, hle⟩ := estimate hs.lt_succ_mul hX
  unfold divHalfLow
  dsimp only
  generalize hc : t.getD (t.length - 1) 0 / (bblow.getD (bblow.length - 1) 0 + 1) = coeff
  have hct : coeff.toNat = num t / (2 ^ (2 * h)) ^ (bblow.length + s - 1) /
      (num bblow / (2 ^ (2 * h)) ^ (bblow.length - 1) + 1) := by
    rw [← hc, toNat_udiv, htop, hs.toNat_highb_add_one hh]
  rw [← hct] at hcoeff hle
  obtain ⟨hml, hmn⟩ := mulhalfLow_spec hcoeff bblow 0 (by rw [toNat_zero]; exact Nat.two_pow_pos h)
  rw [toNat_zero, Nat.add_zero] at hmn
  have hfit : num (mulhalfLow coeff bblow 0) < (2 ^ (2 * h)) ^ bblow.length := by
    rw [hmn]
    have htlt := num_lt t
    rw [hlt, pow_add] at htlt
    refine Nat.lt_of_mul_lt_mul_right (a := (2 ^ (2 * h)) ^ s) ?_
    calc num bblow * coeff.toNat * (2 ^ (2 * h)) ^ s = coeff.toNat *
      (num bblow * (2 ^ (2 * h)) ^ s) := by ring
      _ ≤ num t := hle
      _ < _ := htlt
  have hdl : num (mulhalfLow coeff bblow 0).dropLast = num bblow * coeff.toNat := by
    rw [num_dropLast (by rw [hml, Nat.add_sub_cancel]; exact hfit), hmn]
  have hdlen : (mulhalfLow coeff bblow 0).dropLast.length = bblow.length := by
    rw [length_dropLast, hml, Nat.add_sub_cancel]
  have hprod : num (mulhalfLow coeff bblow 0).dropLast *
      (2 ^ (2 * h)) ^ (t.length - (mulhalfLow coeff bblow 0).dropLast.length) =
      coeff.toNat * (num bblow * (2 ^ (2 * h)) ^ s) := by
    rw [hdl, hdlen, hlt, Nat.add_sub_cancel_left]
    ring
  obtain ⟨hl, hmod, hdiv⟩ := subPosHigh_multiple hh hs.mul_pos hle hprod
  have hlim : num t / (num bblow * (2 ^ (2 * h)) ^ s) < 2 ^ (2 * h) :=
    (Nat.div_lt_of_lt_mul hX).trans_le (Nat.pow_le_pow_right (by decide) (by omega))
  have hE : num bblow * (2 ^ (2 * h)) ^ (bblow.length + s - bblow.length) =
    num bblow * (2 ^ (2 * h)) ^ s := by
    rw [Nat.add_sub_cancel_left]
  obtain ⟨t', c, heq, hl', hnum', hc'⟩ := subWhileGe_spec hh hE hs.mul_pos (2 ^ (2 * h)) _ coeff
    (hl.trans hlt) (by omega) (by omega)
  exact ⟨t', c, heq, hl', hnum'.trans hmod, hc'.trans hdiv⟩

theorem Shifted.top_word_lt (hX : num t < num bblow * (2 ^ (2 * h)) ^ (s + 1)) :
    num t / (2 ^ (2 * h)) ^ (bblow.length + s) < 2 ^ h := by
  have hlen := length_pos_iff.2 hs.ne_nil
  rw [Nat.div_lt_iff_lt_mul (radix_pow_pos _)]
  have h1 := hs.lt_succ_mul (s := s)
  have h2 : (num bblow / (2 ^ (2 * h)) ^ (bblow.length - 1) + 1) * (2 ^ (2 * h)) ^ (bblow.length +
      s - 1) ≤ 2 ^ h * (2 ^ (2 * h)) ^ (bblow.length + s - 1) := Nat.mul_le_mul_right _ hs.top_lt
  calc num t < num bblow * (2 ^ (2 * h)) ^ s * 2 ^ (2 * h) := by rw [Nat.mul_assoc, ← pow_succ]; exact hX
    _ ≤ 2 ^ h * (2 ^ (2 * h)) ^ (bblow.length + s - 1) * 2 ^ (2 * h) :=
    Nat.mul_le_mul_right _ (h1.le.trans h2)
    _ = 2 ^ h * (2 ^ (2 * h)) ^ (bblow.length + s) := by
        rw [Nat.mul_assoc, ← pow_succ, show bblow.length + s - 1 + 1 = bblow.length + s by omega]

theorem Shifted.toNat_higha (hlt : t.length = bblow.length + s + 1)
    (hX : num t < num bblow * (2 ^ (2 * h)) ^ (s + 1)) :
    ((t.getD (t.length - 1) 0 <<< h) + (t.getD (t.length - 2) 0 >>> h)).toNat =
      num t / ((2 ^ (2 * h)) ^ (bblow.length + s - 1) * 2 ^ h) := by
  have hlen := length_pos_iff.2 hs.ne_nil
  have hB : 2 ^ (2 * h) = 2 ^ h * 2 ^ h := two_pow_two_mul h
  have hH := Nat.two_pow_pos h
  have htop_lt := hs.top_word_lt hX
  have htop : (t.getD (t.length - 1) 0).toNat = num t / (2 ^ (2 * h)) ^ (bblow.length + s) := by
    rw [toNat_top (length_pos_iff.1 (by omega)), hlt, Nat.add_sub_cancel]
  have hnext : (t.getD (t.length - 2) 0).toNat =
    num t / (2 ^ (2 * h)) ^ (bblow.length + s - 1) % 2 ^ (2 * h) := by
    rw [toNat_getD, hlt, show bblow.length + s + 1 - 2 = bblow.length + s - 1 by omega]
  have hquot : num t / (2 ^ (2 * h)) ^ (bblow.length + s) =
      num t / (2 ^ (2 * h)) ^ (bblow.length + s - 1) / 2 ^ (2 * h) := by
    rw [Nat.div_div_eq_div_mul, ← pow_succ, show bblow.length + s - 1 + 1 = bblow.length + s by omega]
  have hshl : (t.getD (t.length - 1) 0 <<< h).toNat =
    2 ^ h * (num t / (2 ^ (2 * h)) ^ (bblow.length + s)) := by
    rw [toNat_shl_half, htop, mod_eq_of_lt htop_lt]
  have hfit : 2 ^ h * (num t / (2 ^ (2 * h)) ^ (bblow.length + s)) +
      (t.getD (t.length - 2) 0 >>> h).toNat < 2 ^ (2 * h) := by
    have hshr := high_lt (t.getD (t.length - 2) 0)
    have hmul := Nat.mul_le_mul_left (2 ^ h) (succ_le_of_lt htop_lt)
    rw [Nat.mul_succ, ← hB] at hmul
    omega
  rw [toNat_add, hshl, mod_eq_of_lt hfit, toNat_shr, hnext, ← Nat.div_div_eq_div_mul, hquot]
  generalize num t / (2 ^ (2 * h)) ^ (bblow.length + s - 1) = Y
  have hY := div_add_mod Y (2 ^ (2 * h))
  conv_rhs => rw [← hY, hB, Nat.mul_assoc, mul_add_div hH]
  rw [hB]

theorem Shifted.high_mul : num bbhigh * (2 ^ (2 * h)) ^ (bblow.length + s - bbhigh.length) =
    num bblow * (2 ^ (2 * h)) ^ s * 2 ^ h := by
  have hlen := hs.high_len
  rw [show bblow.length + s - bbhigh.length = bblow.length - bbhigh.length + s by omega, pow_add,
    ← Nat.mul_assoc, hs.high_num]
  ring

section

variable (hh : 0 < h) (hlt : t.length = bblow.length + s + 1)
  (hX : num t < num bblow * (2 ^ (2 * h)) ^ (s + 1))
include hh hlt hX

theorem divHalfHigh_spec : ∃ t' c, divHalfHigh bblow bbhigh t = some (t', c) ∧
      t'.length = bblow.length + s ∧ num t' = num t % (num bblow * (2 ^ (2 * h)) ^ s * 2 ^ h) ∧
      c.toNat = num t / (num bblow * (2 ^ (2 * h)) ^ s * 2 ^ h) := by
  have hlen := length_pos_iff.2 hs.ne_nil
  have hB : 2 ^ (2 * h) = 2 ^ h * 2 ^ h := two_pow_two_mul h
  have hH := Nat.two_pow_pos h
  have hQF : num bblow * (2 ^ (2 * h)) ^ s * 2 ^ h < (num bblow / (2 ^ (2 * h)) ^ (bblow.length - 1) + 1) *
        ((2 ^ (2 * h)) ^ (bblow.length + s - 1) * 2 ^ h) := by
    rw [← Nat.mul_assoc]
    exact Nat.mul_lt_mul_of_pos_right hs.lt_succ_mul hH
  have hXE := lt_halves hX
  obtain ⟨hcoeff, hle⟩ := estimate hQF hXE
  unfold divHalfHigh
  dsimp only
  generalize hc : ((t.getD (t.length - 1) 0 <<< h) + (t.getD (t.length - 2) 0 >>> h)) /
    (bblow.getD (bblow.length - 1) 0 + 1) = coeff
  have hct : coeff.toNat = num t / ((2 ^ (2 * h)) ^ (bblow.length + s - 1) * 2 ^ h) /
      (num bblow / (2 ^ (2 * h)) ^ (bblow.length - 1) + 1) := by
    rw [← hc, toNat_udiv, hs.toNat_higha hlt hX, hs.toNat_highb_add_one hh]
  rw [← hct] at hcoeff hle
  have hz : (0 : Chunk h).toNat < 2 ^ h := by rw [toNat_zero]; exact hH
  obtain ⟨hml, hmn⟩ := mulhalfHigh_spec hcoeff bblow 0 0 hz hz
  rw [toNat_zero, Nat.add_zero, Nat.add_zero] at hmn
  have hprod : num (mulhalfHigh coeff bblow 0 0) *
      (2 ^ (2 * h)) ^ (t.length - (mulhalfHigh coeff bblow 0 0).length) =
      coeff.toNat * (num bblow * (2 ^ (2 * h)) ^ s * 2 ^ h) := by
    rw [hmn, hml, hlt, show bblow.length + s + 1 - (bblow.length + 1) = s by omega]
    ring
  have hEpos : 0 < num bblow * (2 ^ (2 * h)) ^ s * 2 ^ h := Nat.mul_pos hs.mul_pos hH
  obtain ⟨hl, hmod, hdiv⟩ := subPosHigh_multiple hh hEpos hle hprod
  have hlim : num t / (num bblow * (2 ^ (2 * h)) ^ s * 2 ^ h) < 2 ^ (2 * h) :=
    (Nat.div_lt_of_lt_mul hXE).trans_le (Nat.pow_le_pow_right (by decide) (by omega))
  have hsub : num (bbhigh ++ [0]) *
      (2 ^ (2 * h)) ^ (bblow.length + s + 1 - (bbhigh ++ [0]).length) =
      num bblow * (2 ^ (2 * h)) ^ s * 2 ^ h := by
    rw [num_concat_zero, length_append, length_singleton,
      show bblow.length + s + 1 - (bbhigh.length + 1) =
        bblow.length + s - bbhigh.length by omega, hs.high_mul]
  have hEle : num bblow * (2 ^ (2 * h)) ^ s * 2 ^ h ≤ (2 ^ (2 * h)) ^ (bblow.length + s + 1 - 1) := by
    have h1 : (num bblow / (2 ^ (2 * h)) ^ (bblow.length - 1) + 1) *
        ((2 ^ (2 * h)) ^ (bblow.length + s - 1) * 2 ^ h) ≤
        2 ^ h * ((2 ^ (2 * h)) ^ (bblow.length + s - 1) * 2 ^ h) := Nat.mul_le_mul_right _ hs.top_lt
    refine hQF.le.trans (h1.trans_eq ?_)
    rw [Nat.add_sub_cancel, show bblow.length + s = bblow.length + s - 1 + 1 by omega, pow_succ, hB,
      Nat.add_sub_cancel]
    ring
  obtain ⟨t1, c1, heq1, hl1, hlt1, hmod1, hc₁⟩ := subWhileTop_spec hh hsub hEpos hEle (by omega)
    (2 ^ (2 * h)) _ coeff (hl.trans hlt) (by omega) (by omega)
  rw [heq1]
  have hdl : num t1.dropLast = num t1 := num_dropLast (by rw [hl1]; exact hlt1)
  have hdlen : t1.dropLast.length = bblow.length + s := by rw [length_dropLast, hl1, Nat.add_sub_cancel]
  obtain ⟨t2, c2, heq2, hl2, hnum2, hc2⟩ :=
    subWhileGe_spec hh hs.high_mul hEpos (2 ^ (2 * h)) t1.dropLast c1
    hdlen (by rw [hdl]; omega) (by rw [hdl]; omega)
  rw [hdl] at hnum2 hc2
  exact ⟨t2, c2, heq2, hl2, by rw [hnum2, hmod1, hmod], by rw [hc2, hc₁, hdiv]⟩

theorem divStep_spec : ∃ t' q, divStep bblow bbhigh t = some (t', q) ∧
      t'.length = bblow.length + s ∧ num t = q.toNat * (num bblow * (2 ^ (2 * h)) ^ s) + num t' ∧
      num t' < num bblow * (2 ^ (2 * h)) ^ s := by
  have hB : 2 ^ (2 * h) = 2 ^ h * 2 ^ h := two_pow_two_mul h
  have hH := Nat.two_pow_pos h
  obtain ⟨t1, c1, heq1, hl1, hnum1, hc₁⟩ := divHalfHigh_spec hs hh hlt hX
  have hlt1 : num t1 < num bblow * (2 ^ (2 * h)) ^ s * 2 ^ h := by
    rw [hnum1]
    exact mod_lt _ (Nat.mul_pos hs.mul_pos hH)
  obtain ⟨t2, c2, heq2, hl2, hnum2, hc2⟩ := divHalfLow_spec hs hh hl1 hlt1
  have hX' := lt_halves hX
  have hlt₂ : num t2 < num bblow * (2 ^ (2 * h)) ^ s := by
    rw [hnum2]
    exact mod_lt _ hs.mul_pos
  generalize num bblow * (2 ^ (2 * h)) ^ s = F at *
  have h1 : c1.toNat < 2 ^ h := by
    rw [hc₁]
    exact Nat.div_lt_of_lt_mul hX'
  have h2 : c2.toNat < 2 ^ h := by
    rw [hc2]
    exact Nat.div_lt_of_lt_mul hlt1
  have hq : ((c1 <<< h) + c2).toNat = 2 ^ h * c1.toNat + c2.toNat := by
    have hmul := Nat.mul_le_mul_left (2 ^ h) (succ_le_of_lt h1)
    rw [Nat.mul_succ, ← hB] at hmul
    rw [toNat_add, toNat_shl_half, mod_eq_of_lt h1, mod_eq_of_lt (by omega)]
  refine ⟨t2, (c1 <<< h) + c2, ?_, hl2, ?_, hlt₂⟩
  · unfold divStep
    rw [heq1]
    dsimp only [bind_eq_bind, bind_some]
    rw [heq2]
    rfl
  have hd1 := div_add_mod (num t) (F * 2 ^ h)
  have hd2 := div_add_mod (num t1) F
  rw [← hc₁, ← hnum1] at hd1
  rw [← hc2, ← hnum2] at hd2
  rw [hq, ← hd1, ← hd2]
  ring

end

theorem divLoop_spec (hh : 0 < h) : ∀ (n : ℕ) (t tresult : List (Chunk h)),
    t.length = bblow.length + n → num t < num bblow * (2 ^ (2 * h)) ^ n →
    ∃ t' qs, divLoop bblow bbhigh n t tresult = some (t', qs ++ tresult) ∧ t'.length = bblow.length ∧
      qs.length = n ∧ num t = num qs * num bblow + num t' ∧ num t' < num bblow
  | 0, t, tresult, hlen, hX => ⟨t, [], rfl, hlen, rfl, by simp, by simpa using hX⟩
  | n + 1, t, tresult, hlen, hX => by
    obtain ⟨t1, q, heq, hl, hnum, hlt⟩ := divStep_spec hs hh hlen hX
    obtain ⟨t2, qs, heq', hl', hql, hnum', hlt'⟩ := divLoop_spec hh n t1 (q :: tresult) hl hlt
    refine ⟨t2, qs ++ [q], ?_, hl', by simp [hql], ?_, hlt'⟩
    · rw [divLoop, heq]
      dsimp only [bind_eq_bind, bind_some]
      rw [heq', List.append_assoc]
      rfl
    · rw [hnum, hnum', num_concat, hql]
      ring

end Step

/-! ## The shift -/

variable {x : Chunk h}

theorem and_two_pow_eq_zero (hn : n < 2 * h) (hx : x.toNat < 2 ^ (n + 1)) :
    x &&& BitVec.ofNat _ (2 ^ n) = 0 ↔ x.toNat < 2 ^ n := by
  have hlt : 2 ^ n < 2 ^ (2 * h) := Nat.pow_lt_pow_right (by decide) hn
  have hand : (x &&& BitVec.ofNat _ (2 ^ n)).toNat = (x.toNat.testBit n).toNat * 2 ^ n := by
    rw [toNat_and, toNat_ofNat, mod_eq_of_lt hlt, and_two_pow]
  constructor
  · intro h0
    rw [h0, toNat_zero] at hand
    by_contra hge
    have hbit : x.toNat.testBit n = true := testBit_of_two_pow_le_and_two_pow_add_one_gt (by omega) hx
    rw [hbit, Bool.toNat_true, Nat.one_mul] at hand
    omega
  · intro hlt'
    rw [testBit_lt_two_pow hlt'] at hand
    exact eq_of_toNat_eq (by rw [hand, toNat_zero]; simp)

theorem and_halfHighbit (hh : 0 < h) (hx : x.toNat < 2 ^ h) :
    x &&& halfHighbit = 0 ↔ x.toNat < 2 ^ (h - 1) :=
  and_two_pow_eq_zero (by omega) (by rwa [Nat.sub_add_cancel hh])

theorem normalize_spec (hh : 0 < h) : ∀ (n : ℕ) (x : Chunk h) (offs : ℕ), x.toNat < 2 ^ h →
    2 ^ (h - 1) ≤ x.toNat * 2 ^ n →
    ∃ e ≤ n, normalize (n + 1) x offs = some (offs + e) ∧ 2 ^ (h - 1) ≤ x.toNat * 2 ^ e ∧
      x.toNat * 2 ^ e < 2 ^ h := by
  intro n
  induction n with
  | zero =>
    intro x offs hx hle
    refine ⟨0, le_rfl, ?_, by simpa using hle, by simpa using hx⟩
    rw [normalize, if_neg fun h0 => by have := (and_halfHighbit hh hx).1 h0; omega]
    rfl
  | succ n ih =>
    intro x offs hx hle
    rw [normalize]
    by_cases hlt : x.toNat < 2 ^ (h - 1)
    · have hdouble : (x <<< 1).toNat = x.toNat * 2 := by
        rw [toNat_shl, pow_one, mod_eq_of_lt]
        have : 2 ^ h ≤ 2 ^ (2 * h) := Nat.pow_le_pow_right (by decide) (by omega)
        have : 2 ^ h = 2 ^ (h - 1) * 2 := by rw [← pow_succ, Nat.sub_add_cancel hh]
        omega
      have hlt2 : (x <<< 1).toNat < 2 ^ h := by
        have : 2 ^ h = 2 ^ (h - 1) * 2 := by rw [← pow_succ, Nat.sub_add_cancel hh]
        omega
      obtain ⟨e, he, heq, h1, h2⟩ := ih (x <<< 1) (offs + 1) hlt2
        (by rw [hdouble, Nat.mul_assoc, ← Nat.pow_succ']; exact hle)
      rw [hdouble, Nat.mul_assoc, ← Nat.pow_succ'] at h1 h2
      refine ⟨e + 1, by omega, ?_, h1, h2⟩
      rw [if_pos ((and_halfHighbit hh hx).2 hlt), heq, Nat.add_assoc, Nat.add_comm 1 e]
    · rw [if_neg fun h0 => hlt ((and_halfHighbit hh hx).1 h0)]
      exact ⟨0, Nat.zero_le _, rfl, by simpa using hlt, by simpa using hx⟩

/-- The shift of the divisor: its highest word becomes half a word, or half a word with a word
behind it. -/
theorem divOffs_spec (hh : 0 < h) (hx : x ≠ 0) : ∃ offs, divOffs x = some offs ∧
      (offs ≤ h - 1 ∧ 2 ^ (h - 1) ≤ x.toNat * 2 ^ offs ∧ x.toNat * 2 ^ offs + 2 ^ offs ≤ 2 ^ h ∨
        h ≤ offs ∧ offs < 2 * h ∧ 2 ^ (h - 1) * 2 ^ (2 * h) ≤ x.toNat * 2 ^ offs ∧
          x.toNat * 2 ^ offs + 2 ^ offs ≤ 2 ^ h * 2 ^ (2 * h)) := by
  have hB : 2 ^ (2 * h) = 2 ^ h * 2 ^ h := two_pow_two_mul h
  have hpow : 2 ^ h = 2 ^ (h - 1) * 2 := by rw [← pow_succ, Nat.sub_add_cancel hh]
  have hone : (halfHighbit <<< 1 : Chunk h).toNat = 2 ^ h := by
    have h1 : 2 ^ (h - 1) < 2 ^ (2 * h) := Nat.pow_lt_pow_right (by decide) (by omega)
    have h2 : 2 ^ h < 2 ^ (2 * h) := Nat.pow_lt_pow_right (by decide) (by omega)
    rw [toNat_shl, halfHighbit, toNat_ofNat, mod_eq_of_lt h1, pow_one, ← hpow, mod_eq_of_lt h2]
  have hx0 : 0 < x.toNat := Nat.pos_of_ne_zero fun h0 => hx (eq_of_toNat_eq (by rw [h0, toNat_zero]))
  have hexp : ∀ y e, 0 < y → y * 2 ^ e < 2 ^ h → e < h := fun y e hy hlt => by
    have := (Nat.le_mul_of_pos_left (2 ^ e) hy).trans_lt hlt
    exact (Nat.pow_lt_pow_iff_right (by decide)).1 this
  have hround : ∀ y e, e < h → y * 2 ^ e < 2 ^ h → y + 1 ≤ 2 ^ (h - e) := fun y e he hlt => by
    have hsplit : 2 ^ h = 2 ^ (h - e) * 2 ^ e := by rw [← pow_add, Nat.sub_add_cancel he.le]
    rw [hsplit] at hlt
    exact Nat.lt_of_mul_lt_mul_right hlt
  unfold divOffs
  by_cases hge : 2 ^ h ≤ x.toNat
  · rw [if_pos (by rw [ge_iff_le, le_def, hone]; exact hge)]
    have hy : (x >>> h).toNat = x.toNat / 2 ^ h := toNat_shr x h
    have hy0 : 0 < (x >>> h).toNat := by rw [hy]; exact Nat.div_pos hge (Nat.two_pow_pos h)
    obtain ⟨e, -, heq, h1, h2⟩ := normalize_spec hh h (x >>> h) h (high_lt x) (by
      have : 2 ^ (h - 1) ≤ 2 ^ h := by omega
      exact this.trans (Nat.le_mul_of_pos_left _ hy0))
    have he := hexp _ e hy0 h2
    refine ⟨h + e, heq, .inr ⟨by omega, by omega, ?_, ?_⟩⟩
    · have hle : (x >>> h).toNat * 2 ^ h ≤ x.toNat := by rw [hy]; exact div_mul_le_self _ _
      calc 2 ^ (h - 1) * 2 ^ (2 * h) ≤ (x >>> h).toNat * 2 ^ e * 2 ^ (2 * h) := Nat.mul_le_mul_right _ h1
        _ = (x >>> h).toNat * 2 ^ h * 2 ^ (h + e) := by rw [hB, pow_add]; ring
        _ ≤ x.toNat * 2 ^ (h + e) := Nat.mul_le_mul_right _ hle
    have hle : x.toNat + 1 ≤ ((x >>> h).toNat + 1) * 2 ^ h := by
      rw [hy]
      exact lt_mul_of_div_lt (Nat.lt_add_one _) (Nat.two_pow_pos h)
    have hle' := hround _ e he h2
    calc x.toNat * 2 ^ (h + e) + 2 ^ (h + e) = (x.toNat + 1) * 2 ^ (h + e) := by ring
      _ ≤ ((x >>> h).toNat + 1) * 2 ^ h * 2 ^ (h + e) := Nat.mul_le_mul_right _ hle
      _ ≤ 2 ^ (h - e) * 2 ^ h * 2 ^ (h + e) := Nat.mul_le_mul_right _ (Nat.mul_le_mul_right _ hle')
      _ = 2 ^ h * 2 ^ (2 * h) := by rw [← pow_add, ← pow_add, ← pow_add]; congr 1; omega
  · rw [if_neg (by rw [ge_iff_le, le_def, hone]; exact hge)]
    obtain ⟨e, -, heq, h1, h2⟩ := normalize_spec hh h x 0 (by omega) (by
      have : 2 ^ (h - 1) ≤ 2 ^ h := by omega
      exact this.trans (Nat.le_mul_of_pos_left _ hx0))
    have he := hexp _ e hx0 h2
    rw [Nat.zero_add] at heq
    refine ⟨e, heq, .inl ⟨by omega, h1, ?_⟩⟩
    calc x.toNat * 2 ^ e + 2 ^ e = (x.toNat + 1) * 2 ^ e := by ring
      _ ≤ 2 ^ (h - e) * 2 ^ e := Nat.mul_le_mul_right _ (hround _ e he h2)
      _ = 2 ^ h := by rw [← pow_add, Nat.sub_add_cancel he.le]

theorem Trimmed.length_eq (hv : Trimmed v) (hlo : (2 ^ (2 * h)) ^ n ≤ num v)
    (hhi : num v < (2 ^ (2 * h)) ^ (n + 1)) : v.length = n + 1 := by
  have hpos : 0 < num v := (radix_pow_pos _).trans_le hlo
  have hB : 1 < 2 ^ (2 * h) := by
    by_contra hb
    have : 2 ^ (2 * h) = 1 := by have := Nat.two_pow_pos (2 * h); omega
    rw [this, one_pow] at hlo hhi
    omega
  have h1 := (Nat.pow_lt_pow_iff_right hB).1 (hlo.trans_lt (num_lt v))
  have h2 := (Nat.pow_lt_pow_iff_right hB).1 ((hv.le_num (by omega)).trans_lt hhi)
  omega

theorem num_bounds (hv : v ≠ []) :
    (v.getD (v.length - 1) 0).toNat * (2 ^ (2 * h)) ^ (v.length - 1) ≤ num v ∧
      num v < ((v.getD (v.length - 1) 0).toNat + 1) * (2 ^ (2 * h)) ^ (v.length - 1) := by
  rw [toNat_top hv]
  exact ⟨div_mul_le_self _ _, lt_mul_of_div_lt (Nat.lt_add_one _) (radix_pow_pos _)⟩

theorem Trimmed.top_ne_zero (hv : Trimmed v) (h0 : num v ≠ 0) : v.getD (v.length - 1) 0 ≠ 0 := by
  intro htop
  have h1 := hv.le_num h0
  have h2 := (num_bounds hv.ne_nil).2
  rw [htop, toNat_zero, Nat.zero_add, Nat.one_mul] at h2
  omega

theorem length_of_half (hh : 0 < h) (hv : Trimmed v)
    (hlo : 2 ^ (h - 1) * (2 ^ (2 * h)) ^ n ≤ num v) (hhi : num v < 2 ^ h * (2 ^ (2 * h)) ^ n) :
    v.length = n + 1 ∧ 0 < num v / (2 ^ (2 * h)) ^ n ∧ num v / (2 ^ (2 * h)) ^ n < 2 ^ h := by
  have hpos : 0 < (2 ^ (2 * h)) ^ n := radix_pow_pos _
  have hle : (2 ^ (2 * h)) ^ n ≤ num v := (Nat.le_mul_of_pos_left _ (Nat.two_pow_pos (h - 1))).trans hlo
  have hlt : num v < (2 ^ (2 * h)) ^ (n + 1) := by
    rw [Nat.pow_succ']
    exact hhi.trans_le (Nat.mul_le_mul_right _ (Nat.pow_le_pow_right (by decide) (by omega)))
  exact ⟨hv.length_eq hle hlt, Nat.div_pos hle hpos, (Nat.div_lt_iff_lt_mul hpos).2 hhi⟩

variable {offs : ℕ}

theorem divHigh_left (hh : 0 < h) {bblow : List (Chunk h)} (hv : Trimmed bblow)
    (hoffs : offs ≤ h - 1) (hlo : 2 ^ (h - 1) * (2 ^ (2 * h)) ^ n ≤ num bblow)
    (hhi : num bblow < 2 ^ h * (2 ^ (2 * h)) ^ n) :
    ∃ bbhigh, divHigh bblow offs = some bbhigh ∧ Shifted bblow bbhigh := by
  obtain ⟨hl, htop, htop'⟩ := length_of_half hh hv hlo hhi
  have hlt : h < 2 * h := by omega
  have hnum := num_bigShiftleft hlt bblow
  have htrim := trimmed_bigShiftleft hlt hv
  have hP : 0 < (2 ^ (2 * h)) ^ n := radix_pow_pos _
  have hlo' : (2 ^ (2 * h)) ^ n ≤ num bblow :=
    (Nat.le_mul_of_pos_left _ (Nat.two_pow_pos (h - 1))).trans hlo
  have hle : (2 ^ (2 * h)) ^ n ≤ num (bigShiftleft bblow h) := by
    rw [hnum]
    exact hlo'.trans (Nat.le_mul_of_pos_right _ (Nat.two_pow_pos _))
  have hup : num (bigShiftleft bblow h) < (2 ^ (2 * h)) ^ (n + 1) := by
    rw [hnum, pow_succ]
    calc num bblow * 2 ^ h < 2 ^ h * (2 ^ (2 * h)) ^ n * 2 ^ h :=
      Nat.mul_lt_mul_of_pos_right hhi (Nat.two_pow_pos _)
      _ = (2 ^ (2 * h)) ^ n * 2 ^ (2 * h) := by rw [two_pow_two_mul]; ring
  have hhl : (bigShiftleft bblow h).length = bblow.length := by rw [hl, htrim.length_eq hle hup]
  refine ⟨bigShiftleft bblow h, ?_, hv.ne_nil, by rwa [hl], by rwa [hl], hhl.le, ?_⟩
  · unfold divHigh
    rw [if_pos hoffs]
    dsimp only [bind_eq_bind, bind_some]
    rw [if_neg (htrim.top_ne_zero (by omega))]
  · rw [hhl, Nat.sub_self, pow_zero, Nat.mul_one, hnum]

theorem divHigh_right (hh : 0 < h) {bblow : List (Chunk h)} (hv : Trimmed bblow)
    (hoffs : h ≤ offs) (hdvd : 2 ^ h ∣ num bblow) (hlo : 2 ^ (h - 1) * (2 ^ (2 * h)) ^ n ≤ num bblow)
    (hhi : num bblow < 2 ^ h * (2 ^ (2 * h)) ^ n) :
    ∃ bbhigh, divHigh bblow offs = some bbhigh ∧ Shifted bblow bbhigh := by
  obtain ⟨hl, htop, htop'⟩ := length_of_half hh hv hlo hhi
  obtain ⟨r, hr, hrl, hrn⟩ := bigShiftright_spec (show h ≤ 2 * h by omega) hv.ne_nil false (by omega)
  have hne : r ≠ [] := length_pos_iff.1 (by omega)
  have hn : num r * 2 ^ h = num bblow := by rw [hrn, Nat.div_mul_cancel hdvd]
  have hlt : num r < (2 ^ (2 * h)) ^ n := by
    rw [← hn, Nat.mul_comm] at hhi
    exact Nat.lt_of_mul_lt_mul_left hhi
  have htop0 : r.getD (r.length - 1) 0 = 0 := by
    apply eq_of_toNat_eq
    rw [toNat_top hne, hrl, hl, Nat.add_sub_cancel, div_eq_of_lt hlt, toNat_zero]
  refine ⟨r.dropLast, ?_, hv.ne_nil, by rwa [hl], by rwa [hl], by rw [length_dropLast]; omega, ?_⟩
  · unfold divHigh
    rw [if_neg (by omega), hr]
    dsimp only [bind_eq_bind, bind_some]
    rw [if_pos htop0]
  · have hdl : bblow.length - r.dropLast.length = 1 := by rw [length_dropLast]; omega
    rw [num_dropLast (by rw [hrl, hl]; exact hlt), hdl, pow_one, ← hn, two_pow_two_mul]
    ring

theorem divHigh_spec (hh : 0 < h) (hb : Trimmed b) (h0 : num b ≠ 0) :
    ∃ offs bbhigh, divOffs (b.getD (b.length - 1) 0) = some offs ∧ offs < 2 * h ∧
      divHigh (bigShiftleft b offs) offs = some bbhigh ∧ Shifted (bigShiftleft b offs) bbhigh := by
  have hblen := length_pos_iff.2 hb.ne_nil
  obtain ⟨hlo, hhi⟩ := num_bounds hb.ne_nil
  obtain ⟨offs, hoffs, hcase⟩ := divOffs_spec hh (hb.top_ne_zero h0)
  generalize (b.getD (b.length - 1) 0).toNat = x at hlo hhi hcase
  have hlo' : x * 2 ^ offs * (2 ^ (2 * h)) ^ (b.length - 1) ≤ num b * 2 ^ offs := by
    calc x * 2 ^ offs * (2 ^ (2 * h)) ^ (b.length - 1) =
      x * (2 ^ (2 * h)) ^ (b.length - 1) * 2 ^ offs := by ring
      _ ≤ num b * 2 ^ offs := Nat.mul_le_mul_right _ hlo
  have hhi' : num b * 2 ^ offs < (x * 2 ^ offs + 2 ^ offs) * (2 ^ (2 * h)) ^ (b.length - 1) := by
    calc num b * 2 ^ offs < (x + 1) * (2 ^ (2 * h)) ^ (b.length - 1) * 2 ^ offs :=
          Nat.mul_lt_mul_of_pos_right hhi (Nat.two_pow_pos _)
      _ = (x * 2 ^ offs + 2 ^ offs) * (2 ^ (2 * h)) ^ (b.length - 1) := by ring
  rcases hcase with ⟨hle, h1, h2⟩ | ⟨hge, ho, h1, h2⟩
  · have ho : offs < 2 * h := by omega
    obtain ⟨bbhigh, hb1, hb2⟩ := divHigh_left hh (trimmed_bigShiftleft ho hb) hle
      (by rw [num_bigShiftleft ho]; exact (Nat.mul_le_mul_right _ h1).trans hlo')
      (by rw [num_bigShiftleft ho]; exact hhi'.trans_le (Nat.mul_le_mul_right _ h2))
    exact ⟨offs, bbhigh, hoffs, ho, hb1, hb2⟩
  have hP : (2 ^ (2 * h)) ^ b.length = 2 ^ (2 * h) * (2 ^ (2 * h)) ^ (b.length - 1) := by
    rw [← Nat.pow_succ', succ_eq_add_one, Nat.sub_add_cancel hblen]
  obtain ⟨bbhigh, hb1, hb2⟩ := divHigh_right hh (trimmed_bigShiftleft ho hb) hge
    (by rw [num_bigShiftleft ho]; exact Dvd.dvd.mul_left (Nat.pow_dvd_pow 2 hge) _)
    (by rw [num_bigShiftleft ho, hP, ← mul_assoc]; exact (Nat.mul_le_mul_right _ h1).trans hlo')
    (by rw [num_bigShiftleft ho, hP, ← mul_assoc]; exact hhi'.trans_le (Nat.mul_le_mul_right _ h2))
  exact ⟨offs, bbhigh, hoffs, ho, hb1, hb2⟩

/-! ## The division -/

theorem bigDivPos_steps (hh : 0 < h) {a bblow bbhigh : List (Chunk h)} (ha : Trimmed a)
    (hb : Trimmed b) (hle : num b ≤ num a) (ho : offs < 2 * h) (hlow : bblow = bigShiftleft b offs)
    (hs : Shifted bblow bbhigh) :
    ∃ t' qs r, divLoop bblow bbhigh ((bigShiftleft a offs).length - bblow.length + 1)
    (bigShiftleft a offs ++ [0]) [] =
        some (t', qs) ∧ qs ≠ [] ∧ bigShiftright true t' offs = some r ∧ r ≠ [] ∧
      num qs = num a / num b ∧ num r = num a % num b := by
  have hlen := length_pos_iff.2 hs.ne_nil
  have hb' : Trimmed bblow := hlow ▸ trimmed_bigShiftleft ho hb
  have hbn : num bblow = num b * 2 ^ offs := by rw [hlow, num_bigShiftleft ho]
  have han := num_bigShiftleft ho a
  have ht := trimmed_bigShiftleft ho ha
  generalize bigShiftleft a offs = t at han ht ⊢
  have hpow := Nat.two_pow_pos offs
  have hll : bblow.length ≤ t.length :=
    hb'.length_le ht.ne_nil (by rw [hbn, han]; exact Nat.mul_le_mul_right _ hle)
  have hbound : num (t ++ [0]) < num bblow * (2 ^ (2 * h)) ^ (t.length - bblow.length + 1) := by
    rw [num_concat_zero]
    calc num t < (2 ^ (2 * h)) ^ t.length := num_lt t
      _ = (2 ^ (2 * h)) ^ (bblow.length - 1) * (2 ^ (2 * h)) ^ (t.length - bblow.length + 1) := by
        rw [← pow_add]
        congr 1
        omega
      _ ≤ num bblow * (2 ^ (2 * h)) ^ (t.length - bblow.length + 1) :=
        Nat.mul_le_mul_right _ (hb'.le_num hs.num_pos.ne')
  obtain ⟨t', qs, heq, hl', hql, hnum, hlt⟩ := divLoop_spec hs hh _ (t ++ [0]) []
    (by rw [length_append, length_singleton]; omega) hbound
  rw [num_concat_zero, han, hbn] at hnum
  obtain ⟨r, hr, hrl, hrn⟩ :=
    bigShiftright_spec ho.le (length_pos_iff.1 (by omega : 0 < t'.length)) true (fun _ => rfl)
  have hdvd : 2 ^ offs ∣ num t' := by
    have h1 : 2 ^ offs ∣ num qs * (num b * 2 ^ offs) + num t' := hnum ▸ Dvd.intro_left _ rfl
    exact (Nat.dvd_add_right (Dvd.dvd.mul_left (Dvd.intro_left _ rfl) _)).1 h1
  have hsum : num a = num qs * num b + num r := by
    rw [hrn]
    obtain ⟨k, hk⟩ := hdvd
    rw [hk, Nat.mul_div_cancel_left _ hpow]
    apply eq_of_mul_eq_mul_right hpow
    rw [hnum, hk]
    ring
  have hrlt : num r < num b := by rwa [hrn, Nat.div_lt_iff_lt_mul hpow, ← hbn]
  rw [append_nil] at heq
  refine ⟨t', qs, r, heq, length_pos_iff.1 (by omega), hr, length_pos_iff.1 (by omega), ?_, ?_⟩
  · rw [hsum, Nat.add_comm, add_mul_div_right _ _ (by omega), div_eq_of_lt hrlt, Nat.zero_add]
  · rw [hsum, Nat.add_comm, add_mul_mod_self_right, mod_eq_of_lt hrlt]

theorem bigDivPos_spec (hh : 0 < h) {aa bb : Bignum h} (ha : aa.value ≠ []) (hb : bb.value ≠ [])
    (h0 : bb.abs ≠ 0) :
    ∃ q r, bigDivPos aa bb = some (q, r) ∧ q.abs = aa.abs / bb.abs ∧ r.abs = aa.abs % bb.abs ∧
      q.sign = 1 ∧ r.sign = aa.sign ∧ Trimmed q.value ∧ Trimmed r.value := by
  unfold Bignum.abs at *
  have hta := trimmed_trim ha
  have htb := trimmed_trim hb
  unfold bigDivPos
  dsimp only [bigCopy]
  rw [if_neg (by rw [trim_eq_singleton hb]; simpa using h0)]
  by_cases hlt : num aa.value < num bb.value
  · rw [if_pos (by rw [cmpAbs_eq_lt, num_trim, num_trim]; exact hlt)]
    refine ⟨_, _, rfl, ?_, ?_, rfl, rfl, trimmed_singleton 0, trimmed_trim hta.ne_nil⟩
    · rw [div_eq_of_lt hlt, num_singleton, toNat_zero]
    · rw [mod_eq_of_lt hlt, num_trim, num_trim]
  rw [if_neg (by rw [cmpAbs_eq_lt, num_trim, num_trim]; exact hlt)]
  obtain ⟨offs, bbhigh, hoffs, ho, hhigh, hs⟩ := divHigh_spec hh htb (by rwa [num_trim])
  obtain ⟨t', qs, r, heq, hqs, hr, hrne, hq, hrn⟩ := bigDivPos_steps hh hta htb
    (by rw [num_trim, num_trim]; omega) ho rfl hs
  rw [Bignum.len, hoffs]
  dsimp only [bind_eq_bind, bind_some]
  rw [hhigh]
  dsimp only [bind_some]
  rw [heq]
  dsimp only [bind_some]
  rw [hr]
  refine ⟨_, _, rfl, ?_, ?_, rfl, rfl, trimmed_trim hqs, trimmed_trim hrne⟩
  · rw [num_trim, hq, num_trim, num_trim]
  · rw [num_trim, hrn, num_trim, num_trim]

end Osol.Big
