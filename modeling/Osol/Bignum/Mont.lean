import Osol.Bignum.Div
import Osol.Lib.Montgomery

/-!
# Montgomery multiplication

`big_mont_mul` adds multiples of the modulus to the product until the low words are zero, and takes
the modulus off what remains once if that is greater than the modulus. It does not take it off if
the two are equal, so that a product that the modulus divides becomes the modulus, unless it is zero.
-/

namespace Osol.Big

open Osol.Lib List Option BitVec Nat

variable {h : ℕ}

/-! ## Products -/

section Mul

variable (ops : VecOps h)

theorem mul_words {a b : List (Chunk h)} (ha : a ≠ []) (hb : b ≠ []) (diff : Ordering)
    (hdiff : diff = .eq → a = b) :
    (if diff = .eq ∧ a.length > 2 then ops.sqrVec a else ops.mulVec a b).length = a.length + b.length ∧
      num (if diff = .eq ∧ a.length > 2 then ops.sqrVec a else ops.mulVec a b) = num a * num b := by
  split
  · rename_i hsq
    rw [← hdiff hsq.1]
    exact ⟨ops.sqrVec_length a hsq.2, ops.sqrVec_num a hsq.2⟩
  · exact ⟨ops.mulVec_length a b ha hb, ops.mulVec_num a b ha hb⟩

theorem num_eq_zero_iff {v : List (Chunk h)} (hv : Trimmed v) : num v = 0 ↔ v = [0] := by
  constructor
  · intro h0
    exact hv.eq (trimmed_singleton 0) (by rw [h0, num_singleton, toNat_zero])
  · rintro rfl
    rw [num_singleton, toNat_zero]

theorem mul_trimmed (hh : 0 < h) {a b : List (Chunk h)} (ha : Trimmed a) (hb : Trimmed b)
    (diff : Ordering) (hdiff : diff = .eq → a = b) (sign : ℤ) :
    ∃ r : Bignum h, (if a = [0] ∨ b = [0] then ⟨1, [0]⟩
        else if a = [1] then ⟨sign, b⟩
        else if b = [1] then ⟨sign, a⟩
        else
          let t := if diff = .eq ∧ a.length > 2 then ops.sqrVec a else ops.mulVec a b
          let t := if t.getD (a.length + b.length - 1) 0 = 0 then t.dropLast else t
          ⟨sign, trim t⟩) = r ∧
      num r.value = num a * num b ∧ Trimmed r.value ∧ r.sign = if num a * num b = 0 then 1 else sign := by
  refine ⟨_, rfl, ?_⟩
  have hone : num [(1 : Chunk h)] = 1 := by rw [num_singleton, toNat_one hh]
  split
  · rename_i h0
    rw [← num_eq_zero_iff ha, ← num_eq_zero_iff hb, ← Nat.mul_eq_zero] at h0
    rw [if_pos h0, h0]
    exact ⟨by rw [num_singleton, toNat_zero], trimmed_singleton 0, rfl⟩
  rename_i h0
  rw [← num_eq_zero_iff ha, ← num_eq_zero_iff hb, ← Nat.mul_eq_zero] at h0
  split
  · rename_i h1
    rw [h1, hone, Nat.one_mul]
    exact ⟨rfl, hb, rfl⟩
  split
  · rename_i h1
    rw [h1, hone, Nat.mul_one]
    exact ⟨rfl, ha, rfl⟩
  dsimp only
  obtain ⟨hlen, hnum⟩ := mul_words ops ha.ne_nil hb.ne_nil diff hdiff
  generalize (if diff = .eq ∧ a.length > 2 then ops.sqrVec a else ops.mulVec a b) = t at hlen hnum ⊢
  have hal := length_pos_iff.2 ha.ne_nil
  have hbl := length_pos_iff.2 hb.ne_nil
  have ht : t ≠ [] := length_pos_iff.1 (by omega)
  rw [← hlen, num_trim]
  split
  · rename_i htop
    have hlt := (num_bounds ht).2
    rw [htop, toNat_zero, Nat.zero_add, Nat.one_mul] at hlt
    exact ⟨by rw [num_dropLast hlt, hnum],
      trimmed_trim (length_pos_iff.1 (by rw [length_dropLast]; omega)), rfl⟩
  · exact ⟨hnum, trimmed_trim ht, rfl⟩

theorem bigMul_spec (hh : 0 < h) {aa bb : Bignum h} (ha : aa.value ≠ []) (hb : bb.value ≠ []) :
    (bigMul ops aa bb).abs = aa.abs * bb.abs ∧ Trimmed (bigMul ops aa bb).value ∧
      (bigMul ops aa bb).sign = if aa.abs * bb.abs = 0 then 1 else aa.sign * bb.sign := by
  have hta := trimmed_trim ha
  have htb := trimmed_trim hb
  unfold bigMul Bignum.abs
  dsimp only
  by_cases hlt : cmpAbs aa.value bb.value = .lt
  · rw [if_pos hlt]
    obtain ⟨r, hr, hnum, htr, hsign⟩ := mul_trimmed ops hh htb hta (cmpAbs aa.value bb.value)
      (fun heq => absurd (heq.symm.trans hlt) (by decide)) (bb.sign * aa.sign)
    rw [num_trim, num_trim] at hnum hsign
    rw [hr, hnum, hsign, Nat.mul_comm, mul_comm bb.sign]
    exact ⟨rfl, htr, rfl⟩
  rw [if_neg hlt]
  obtain ⟨r, hr, hnum, htr, hsign⟩ := mul_trimmed ops hh hta htb (cmpAbs aa.value bb.value)
    (fun heq => hta.eq htb (by rw [num_trim, num_trim]; exact (cmpAbs_eq_eq _ _).1 heq)) (aa.sign * bb.sign)
  rw [num_trim, num_trim] at hnum hsign
  rw [hr, hnum, hsign]
  exact ⟨rfl, htr, rfl⟩

end Mul

/-! ## Carries -/

theorem add_lt_iff (r c : Chunk h) : r + c < c ↔ 2 ^ (2 * h) ≤ r.toNat + c.toNat := by
  rw [lt_def, toNat_add]
  constructor
  · intro hlt
    by_contra hge
    rw [mod_eq_of_lt (by omega)] at hlt
    omega
  · intro hle
    rw [mod_eq_sub_mod hle, mod_eq_of_lt (by omega)]
    omega

theorem addAt_spec (hh : 0 < h) : ∀ (rr : List (Chunk h)) (c : Chunk h), rr ≠ [] →
    num rr + c.toNat < (2 ^ (2 * h)) ^ rr.length →
    ∃ rr', addAt rr c = some rr' ∧ rr'.length = rr.length ∧ num rr' = num rr + c.toNat
  | [], _, hne, _ => absurd rfl hne
  | r :: rr, c, _, hlt => by
    rw [num_cons, length_cons, Nat.pow_succ'] at hlt
    rw [addAt]
    by_cases hov : r + c < c
    · rw [if_pos hov]
      rw [add_lt_iff] at hov
      have hlt' : num rr + 1 < (2 ^ (2 * h)) ^ rr.length := by
        apply Nat.lt_of_mul_lt_mul_left (a := 2 ^ (2 * h))
        rw [Nat.mul_add]
        omega
      have hne : rr ≠ [] := by
        rintro rfl
        simp at hlt'
      obtain ⟨rr', heq, hlen, hnum⟩ := addAt_spec hh rr 1 hne (by rwa [toNat_one hh])
      refine ⟨(r + c) :: rr', by rw [heq]; rfl, by simp [hlen], ?_⟩
      rw [num_cons, num_cons, hnum, toNat_one hh, toNat_add, mod_eq_sub_mod hov,
        mod_eq_of_lt (by omega), Nat.mul_add]
      omega
    · rw [if_neg hov]
      rw [add_lt_iff] at hov
      refine ⟨_, rfl, rfl, ?_⟩
      rw [num_cons, num_cons, toNat_add, mod_eq_of_lt (by omega)]
      omega

variable {rr : List (Chunk h)}

theorem atOffset_spec (hh : 0 < h) {j : ℕ} {c : Chunk h} (hj : j < rr.length)
    (hlt : num rr + (2 ^ (2 * h)) ^ j * c.toNat < (2 ^ (2 * h)) ^ rr.length) :
    ∃ rr', atOffset j (addAt · c) rr = some rr' ∧ rr'.length = rr.length ∧
      num rr' = num rr + (2 ^ (2 * h)) ^ j * c.toNat := by
  have hsplit := num_take_add_drop rr hj.le
  have hlen : (rr.drop j).length = rr.length - j := length_drop
  have hlt' : num (rr.drop j) + c.toNat < (2 ^ (2 * h)) ^ (rr.drop j).length := by
    apply Nat.lt_of_mul_lt_mul_left
    rw [hlen, ← pow_add, Nat.add_sub_cancel' hj.le, Nat.mul_add]
    omega
  obtain ⟨rr', heq, hl, hnum⟩ := addAt_spec hh (rr.drop j) c (length_pos_iff.1 (by omega)) hlt'
  refine ⟨rr.take j ++ rr', by rw [atOffset, heq]; rfl, ?_, ?_⟩
  · rw [length_append, hl, length_take_of_le hj.le, hlen, Nat.add_sub_cancel' hj.le]
  · rw [num_append, hnum, length_take_of_le hj.le, ← hsplit]
    ring

/-! ## The rows -/

section Rows

variable (ops : VecOps h) {nn : List (Chunk h)} {n0 : Chunk h}

theorem dvd_row (hn0 : 2 ^ (2 * h) ∣ n0.toNat * num nn + 1) {v : List (Chunk h)} (hv : v ≠ []) :
    2 ^ (2 * h) ∣ num v + num nn * (v.getD 0 0 * n0).toNat := by
  obtain ⟨d, v, rfl⟩ := exists_cons_of_ne_nil hv
  rw [getD_cons_zero, num_cons, toNat_mul]
  have hmod : d.toNat + 2 ^ (2 * h) * num v + num nn * (d.toNat * n0.toNat % 2 ^ (2 * h)) ≡
      d.toNat + 0 + num nn * (d.toNat * n0.toNat) [MOD 2 ^ (2 * h)] :=
    ((Nat.ModEq.refl _).add (Nat.modEq_zero_iff_dvd.2 (Nat.dvd_mul_right _ _))).add
      ((Nat.ModEq.refl _).mul (mod_modEq _ _))
  rw [ModEq.dvd_iff hmod dvd_rfl]
  rw [show d.toNat + 0 + num nn * (d.toNat * n0.toNat) = d.toNat * (n0.toNat * num nn + 1) by ring]
  exact Dvd.dvd.mul_left hn0 _

theorem mulAddRow_spec (hn : nn ≠ []) (hn0 : 2 ^ (2 * h) ∣ n0.toNat * num nn + 1) {i : ℕ}
    (hi : i + nn.length ≤ rr.length) (hdvd : (2 ^ (2 * h)) ^ i ∣ num rr) :
    ∃ d < 2 ^ (2 * h), (rr.take i ++ (mulAddRow ops nn n0 (rr.drop i)).1).length = rr.length ∧
      num (rr.take i ++ (mulAddRow ops nn n0 (rr.drop i)).1) +
          (2 ^ (2 * h)) ^ (i + nn.length) * (mulAddRow ops nn n0 (rr.drop i)).2.toNat =
        num rr + num nn * (d * (2 ^ (2 * h)) ^ i) ∧
      (2 ^ (2 * h)) ^ (i + 1) ∣ num rr + num nn * (d * (2 ^ (2 * h)) ^ i) := by
  have hnl := length_pos_iff.2 hn
  have hil : i ≤ rr.length := by omega
  have hvl : (rr.drop i).length = rr.length - i := length_drop
  have hsplit := num_take_add_drop rr hil
  have hlt := num_lt (rr.take i)
  rw [length_take_of_le hil] at hlt
  have hzero : num (rr.take i) = 0 := by
    rw [← hsplit] at hdvd
    exact eq_zero_of_dvd_of_lt ((Nat.dvd_add_left (Nat.dvd_mul_right _ _)).1 hdvd) hlt
  unfold mulAddRow
  generalize rr.drop i = v at hvl hsplit ⊢
  have hv : v ≠ [] := length_pos_iff.1 (by omega)
  have hvn : nn.length ≤ v.length := by omega
  have htl : (v.take nn.length).length = nn.length := length_take_of_le hvn
  have hsplit' := num_take_add_drop v hvn
  have hlen := ops.mulAddVec_length (v.take nn.length) nn (v.getD 0 0 * n0) hn htl
  have hnum := ops.mulAddVec_num (v.take nn.length) nn (v.getD 0 0 * n0) hn htl
  refine ⟨(v.getD 0 0 * n0).toNat, isLt _, ?_, ?_, ?_⟩
  · rw [length_append, length_append, hlen, length_take_of_le hil, length_drop]
    omega
  · rw [num_append, num_append, hlen, length_take_of_le hil, ← hsplit, ← hsplit', pow_add]
    linear_combination (2 ^ (2 * h)) ^ i * hnum
  · rw [← hsplit, hzero, Nat.zero_add, pow_succ]
    rw [show (2 ^ (2 * h)) ^ i * num v + num nn * ((v.getD 0 0 * n0).toNat * (2 ^ (2 * h)) ^ i) =
      (2 ^ (2 * h)) ^ i * (num v + num nn * (v.getD 0 0 * n0).toNat) by ring]
    exact Nat.mul_dvd_mul_left _ (dvd_row hn0 hv)

theorem digit_le {B d : ℕ} (hd : d < B) (i : ℕ) : d * B ^ i + B ^ i ≤ B ^ (i + 1) := by
  calc d * B ^ i + B ^ i = (d + 1) * B ^ i := by ring
    _ ≤ B * B ^ i := Nat.mul_le_mul_right _ hd
    _ = B ^ (i + 1) := Nat.pow_succ'.symm

theorem montRows_spec (hh : 0 < h) (hn : nn ≠ []) (hn0 : 2 ^ (2 * h) ∣ n0.toNat * num nn + 1) :
    ∀ (k i : ℕ) (rr : List (Chunk h)), i + k ≤ nn.length → rr.length = 2 * nn.length + 1 →
      (2 ^ (2 * h)) ^ i ∣ num rr →
      num rr + num nn * (2 ^ (2 * h)) ^ (i + k) < (2 ^ (2 * h)) ^ (2 * nn.length + 1) +
      num nn * (2 ^ (2 * h)) ^ i →
      ∃ rr' m, montRows ops nn n0 k i rr = some rr' ∧ rr'.length = rr.length ∧
        m + (2 ^ (2 * h)) ^ i ≤ (2 ^ (2 * h)) ^ (i + k) ∧ num rr' = num rr + num nn * m ∧
        (2 ^ (2 * h)) ^ (i + k) ∣ num rr'
  | 0, i, rr, _, _, hdvd, _ => ⟨rr, 0, rfl, rfl, by simp, by simp, hdvd⟩
  | k + 1, i, rr, hik, hlen, hdvd, hbound => by
    have hsucc : i + 1 + k = i + (k + 1) := by omega
    obtain ⟨d, hd, hl, hnum, hdvd'⟩ := mulAddRow_spec ops hn hn0 (by omega) hdvd
    have hdig := digit_le hd i
    have hdig' := Nat.mul_le_mul_left (num nn) hdig
    rw [Nat.mul_add] at hdig'
    have hpow : (2 ^ (2 * h)) ^ (i + 1) ≤ (2 ^ (2 * h)) ^ (i + (k + 1)) :=
      Nat.pow_le_pow_right (Nat.two_pow_pos _) (by omega)
    have hpow' := Nat.mul_le_mul_left (num nn) hpow
    have hfit : num (rr.take i ++ (mulAddRow ops nn n0 (rr.drop i)).1) +
        (2 ^ (2 * h)) ^ (i + nn.length) * (mulAddRow ops nn n0 (rr.drop i)).2.toNat <
          (2 ^ (2 * h)) ^ (rr.take i ++ (mulAddRow ops nn n0 (rr.drop i)).1).length := by
      rw [hnum, hl, hlen]
      omega
    obtain ⟨rr1, heq1, hl1, hnum1⟩ := atOffset_spec hh (by omega) hfit
    rw [hnum] at hnum1
    obtain ⟨rr', m, heq, hl', hm, hnum', hdvd1⟩ :=
      montRows_spec hh hn hn0 k (i + 1) rr1 (by omega) (by omega)
      (by rw [hnum1]; exact hdvd') (by rw [hnum1, hsucc]; omega)
    refine ⟨rr', d * (2 ^ (2 * h)) ^ i + m, ?_, by omega, ?_, ?_, ?_⟩
    · rwa [montRows, heq1]
    · rw [hsucc] at hm
      omega
    · rw [hnum', hnum1]
      ring
    · rwa [← hsucc]

theorem montRowsFirst_spec (hn : nn ≠ []) (hn0 : 2 ^ (2 * h) ∣ n0.toNat * num nn + 1) :
    ∀ (k i : ℕ) (rr : List (Chunk h)), i + k ≤ nn.length → rr.length = 2 * nn.length + 1 →
      (2 ^ (2 * h)) ^ i ∣ num rr →
      ∃ rr' cs m, montRowsFirst ops nn n0 k i rr = (rr', cs) ∧ rr'.length = rr.length ∧
        cs.length = k ∧ m + (2 ^ (2 * h)) ^ i ≤ (2 ^ (2 * h)) ^ (i + k) ∧
        num rr' + (2 ^ (2 * h)) ^ (i + nn.length) * num cs = num rr + num nn * m ∧
        (2 ^ (2 * h)) ^ (i + k) ∣ num rr'
  | 0, i, rr, _, _, hdvd => ⟨rr, [], 0, rfl, rfl, rfl, by simp, by simp, hdvd⟩
  | k + 1, i, rr, hik, hlen, hdvd => by
    have hsucc : i + 1 + k = i + (k + 1) := by omega
    obtain ⟨d, hd, hl, hnum, hdvd'⟩ := mulAddRow_spec ops hn hn0 (by omega) hdvd
    have hdvd1 : (2 ^ (2 * h)) ^ (i + 1) ∣ num (rr.take i ++ (mulAddRow ops nn n0 (rr.drop i)).1) := by
      rw [← hnum] at hdvd'
      exact (Nat.dvd_add_left (Dvd.dvd.mul_right (Nat.pow_dvd_pow _ (by omega)) _)).1 hdvd'
    obtain ⟨rr', cs, m, heq, hl', hcs, hm, hnum', hdvd2⟩ := montRowsFirst_spec hn hn0 k (i + 1)
      (rr.take i ++ (mulAddRow ops nn n0 (rr.drop i)).1) (by omega) (by omega) hdvd1
    refine ⟨rr', (mulAddRow ops nn n0 (rr.drop i)).2 :: cs, d * (2 ^ (2 * h)) ^ i + m, ?_, by omega,
      by simp [hcs], ?_, ?_, ?_⟩
    · rw [montRowsFirst, heq]
    · have := digit_le hd i
      rw [hsucc] at hm
      omega
    · rw [num_cons]
      rw [show i + 1 + nn.length = i + nn.length + 1 by omega, pow_succ] at hnum'
      linear_combination hnum' + hnum
    · rwa [← hsucc]

end Rows

theorem montCarries_spec (hh : 0 < h) : ∀ (cs : List (Chunk h)) (j : ℕ) (rr : List (Chunk h)),
    j + cs.length ≤ rr.length → num rr + (2 ^ (2 * h)) ^ j * num cs < (2 ^ (2 * h)) ^ rr.length →
    ∃ rr', montCarries cs j rr = some rr' ∧ rr'.length = rr.length ∧
    num rr' = num rr + (2 ^ (2 * h)) ^ j * num cs
  | [], _, rr, _, _ => ⟨rr, rfl, rfl, by simp⟩
  | c :: cs, j, rr, hj, hlt => by
    rw [length_cons] at hj
    rw [num_cons, Nat.mul_add, ← mul_assoc, ← pow_succ] at hlt
    have hfit : num rr + (2 ^ (2 * h)) ^ j * c.toNat < (2 ^ (2 * h)) ^ rr.length := by omega
    obtain ⟨rr1, heq1, hl1, hnum1⟩ := atOffset_spec hh (by omega) hfit
    obtain ⟨rr', heq, hl, hnum⟩ := montCarries_spec hh cs (j + 1) rr1 (by omega) (by rw [hnum1, hl1]; omega)
    refine ⟨rr', ?_, by omega, ?_⟩
    · rwa [montCarries, heq1]
    · rw [hnum, hnum1, num_cons]
      ring

/-! ## The reduction -/

/-- An odd modulus, and the word that the rows take their multiples of it from. -/
structure Modulus (n : Bignum h) (n0 : Chunk h) : Prop where
  ne_nil : n.value ≠ []
  odd : n.abs % 2 = 1
  n0 : 2 ^ (2 * h) ∣ n0.toNat * n.abs + 1

/-- The `R` of the Montgomery form. -/
abbrev Bignum.radix (n : Bignum h) : ℕ := (2 ^ (2 * h)) ^ n.len

theorem coprime_radix {n : Bignum h} (hodd : n.abs % 2 = 1) : Coprime n.abs n.radix := by
  have h2 : Coprime n.abs 2 := (Nat.coprime_two_left.2 (Nat.odd_iff.2 hodd)).symm
  exact (h2.pow_right _).pow_right _

theorem abs_lt_radix (n : Bignum h) : n.abs < n.radix := num_lt n.value

section Mont

variable (ops : VecOps h) {n : Bignum h} {n0 : Chunk h}

theorem mont_rows (hh : 0 < h) (hn : Modulus n n0) (intel : Bool)
    (hlen : rr.length = 2 * n.len + 1) (hT : num rr ≤ n.abs * n.abs) :
    ∃ rr' m, (if intel ∧ n.len ≤ bigtmpsize then
        montCarries (montRowsFirst ops n.value n0 n.len 0 rr).2 n.len
        (montRowsFirst ops n.value n0 n.len 0 rr).1
      else montRows ops n.value n0 n.len 0 rr) = some rr' ∧
      rr'.length = 2 * n.len + 1 ∧ m < n.radix ∧ num rr' = num rr + n.abs * m ∧ n.radix ∣ num rr' := by
  have hN := abs_lt_radix n
  have hbound : ∀ m < n.radix, num rr + n.abs * m < (2 ^ (2 * h)) ^ (2 * n.len + 1) := fun m hm => by
    have hB : 2 ≤ 2 ^ (2 * h) := Nat.le_self_pow (by omega) 2
    calc num rr + n.abs * m ≤ n.radix * n.abs + n.radix * n.abs := by nlinarith
      _ < n.radix * n.radix + n.radix * n.radix := by nlinarith
      _ = 2 * (n.radix * n.radix) := by ring
      _ ≤ 2 ^ (2 * h) * (n.radix * n.radix) := Nat.mul_le_mul_right _ hB
      _ = (2 ^ (2 * h)) ^ (2 * n.len + 1) := by unfold Bignum.radix; ring
  split
  · obtain ⟨rr1, cs, m, heq, hl, hcs, hm, hnum, hdvd⟩ :=
      montRowsFirst_spec ops hn.ne_nil hn.n0 n.len 0 rr (by rw [Bignum.len]; omega) hlen (by simp)
    rw [Nat.zero_add, pow_zero] at hm
    rw [Nat.zero_add] at hnum hdvd
    obtain ⟨rr', heq', hl', hnum'⟩ := montCarries_spec hh cs n.len rr1 (by omega)
      (by rw [show (2 ^ (2 * h)) ^ n.len = (2 ^ (2 * h)) ^ n.value.length from rfl, hnum, hl,
        hlen]; exact hbound m hm)
    refine ⟨rr', m, by rw [heq]; exact heq', by omega, hm, by rw [hnum']; exact hnum, ?_⟩
    rw [hnum']
    exact Nat.dvd_add hdvd (Nat.dvd_mul_right _ _)
  · obtain ⟨rr', m, heq, hl, hm, hnum, hdvd⟩ := montRows_spec ops hh hn.ne_nil hn.n0 n.len 0 rr
      (by rw [Bignum.len]; omega) hlen (by simp) (by
        rw [Nat.zero_add, pow_zero, Nat.mul_one]
        have := hbound (n.radix - 1) (by omega)
        rw [Nat.mul_sub, Nat.mul_one] at this
        change num rr + n.abs * n.radix < _ + n.abs
        rw [show n.value.length = n.len from rfl]
        omega)
    rw [Nat.zero_add, pow_zero] at hm
    rw [Nat.zero_add] at hdvd
    exact ⟨rr', m, heq, hl.trans hlen, hm, hnum, hdvd⟩

/-- The words above the zero ones, less the modulus if they are greater. -/
def montReduce (n : List (Chunk h)) (rr : List (Chunk h)) : List (Chunk h) :=
  if rr.getD (2 * n.length) 0 ≠ 0 ∨ cmpAbs ((rr.drop n.length).take n.length) n = .gt then
    (subVec ((rr.drop n.length).take n.length) n 1).1
  else (rr.drop n.length).take n.length

theorem montReduce_spec (hh : 0 < h) {n : List (Chunk h)} (hlen : rr.length = 2 * n.length + 1)
    (hlt : num (rr.drop n.length) < num n + num n) :
    (montReduce n rr).length = n.length ∧ num (montReduce n rr) =
      if num n < num (rr.drop n.length) then num (rr.drop n.length) - num n else num
        (rr.drop n.length) := by
  unfold montReduce
  have hdl : (rr.drop n.length).length = n.length + 1 := by rw [length_drop]; omega
  have hget : rr.getD (2 * n.length) 0 = (rr.drop n.length).getD n.length 0 := by
    rw [getD_eq_getElem _ _ (by omega), getD_eq_getElem _ _ (by omega), getElem_drop]
    congr 1
    omega
  rw [hget]
  generalize rr.drop n.length = v at hlt hdl ⊢
  have hsplit : num v = num (v.take n.length) + (2 ^ (2 * h)) ^ n.length * (v.getD n.length 0).toNat := by
    rw [← num_take_add_drop v (show n.length ≤ v.length by omega), drop_eq_getElem_cons (by omega),
      drop_eq_nil_of_le (by omega), num_singleton, getD_eq_getElem _ _ (by omega)]
  have htl : (v.take n.length).length = n.length := length_take_of_le (by omega)
  have hhigh := num_lt (v.take n.length)
  have hn := num_lt n
  generalize v.take n.length = high at hsplit htl hhigh ⊢
  generalize hd : v.getD n.length 0 = d at hsplit ⊢
  by_cases h0 : d = 0
  · rw [h0, toNat_zero, Nat.mul_zero, Nat.add_zero] at hsplit
    rw [hsplit]
    by_cases hgt : num n < num high
    · rw [if_pos (.inr ((cmpAbs_eq_gt _ _).2 hgt)), if_pos hgt]
      obtain ⟨hl, -, hnum⟩ := subVec_num hh hgt.le
      exact ⟨hl.trans htl, hnum⟩
    · rw [if_neg (by rw [cmpAbs_eq_gt]; simp [h0, hgt]), if_neg hgt]
      exact ⟨htl, rfl⟩
  · have hpos : 1 ≤ d.toNat := Nat.pos_of_ne_zero fun hz => h0 (eq_of_toNat_eq (by rw [hz, toNat_zero]))
    have hle := Nat.mul_le_mul_left ((2 ^ (2 * h)) ^ n.length) hpos
    have hone : d.toNat = 1 := by
      by_contra hne
      have := Nat.mul_le_mul_left ((2 ^ (2 * h)) ^ n.length) (show 2 ≤ d.toNat by omega)
      omega
    rw [if_pos (.inl h0), if_pos (by omega)]
    obtain ⟨hl, hbit, hnum⟩ := subVec_spec hh high n 1 (.inr (toNat_one hh)) (by omega)
    rw [htl, toNat_one hh] at hnum
    rw [hone, Nat.mul_one] at hsplit
    rcases hbit with hb | hb <;> rw [hb] at hnum <;> omega

theorem bigMontMul_spec (hh : 0 < h) (hn : Modulus n n0) (intel : Bool) {a b : Bignum h}
    (ha : a.value ≠ []) (hb : b.value ≠ []) (hab : a.abs * b.abs ≤ n.abs * n.abs) :
    ∃ r, bigMontMul ops intel a b n n0 = some r ∧ Redc n.abs n.radix (a.abs * b.abs) r.abs ∧
      Trimmed r.value ∧ r.sign = if a.abs * b.abs = 0 then 1 else a.sign * b.sign := by
  obtain ⟨hmul, hmt, hms⟩ := bigMul_spec ops hh ha hb
  have hN := abs_lt_radix n
  have hN0 : 0 < n.abs := Nat.pos_of_ne_zero fun h0 => by simpa [h0] using hn.odd
  have hnl : 0 < n.len := length_pos_iff.2 hn.ne_nil
  have hlen : (bigMul ops a b).len ≤ 2 * n.len := by
    refine hmt.length_le_of_lt (by omega) (hmul.trans_lt ?_)
    rw [Nat.two_mul n.len, pow_add]
    exact hab.trans_lt (Nat.mul_lt_mul'' hN hN)
  have hpad : ((bigMul ops a b).value ++
      List.replicate (2 * n.len + 1 - (bigMul ops a b).len) 0).length = 2 * n.len + 1 := by
    rw [length_append, length_replicate]
    unfold Bignum.len at *
    omega
  obtain ⟨rr, m, heq, hl, hm, hnum, hdvd⟩ := mont_rows ops hh hn intel hpad
    (by rw [num_append_zeros]; exact hmul.trans_le hab)
  rw [num_append_zeros, show num (bigMul ops a b).value = a.abs * b.abs from hmul] at hnum
  have hV : num (rr.drop n.len) * n.radix = a.abs * b.abs + n.abs * m := by
    rw [num_drop rr (by omega), Nat.div_mul_cancel hdvd, hnum]
  have hlt : num (rr.drop n.len) < num n.value + num n.value := by
    apply Nat.lt_of_mul_lt_mul_right
    change _ < (n.abs + n.abs) * n.radix
    nlinarith
  obtain ⟨hrl, hrn⟩ := montReduce_spec hh hl hlt
  have hredc := Redc.of_sum (coprime_radix hn.odd) hN hN0 hab hm hV
  have hret : bigMontMul ops intel a b n n0 =
    some ⟨(bigMul ops a b).sign, trim (montReduce n.value rr)⟩ := by
    unfold bigMontMul montReduce
    dsimp only
    split at heq
    · next hif =>
      rw [if_pos hif, heq]
      rfl
    · next hif =>
      rw [if_neg hif, heq]
      rfl
  refine ⟨_, hret, ?_, ?_, hms⟩
  · change Redc _ _ _ (num (trim _))
    rwa [num_trim, hrn]
  · exact trimmed_trim (length_pos_iff.1 (by rw [hrl]; exact hnl))

end Mont

/-! ## The constants of a modulus -/

theorem and_one_eq (hh : 0 < h) (x : Chunk h) : x &&& 1 = 1 ↔ x.toNat % 2 = 1 := by
  have h1 := toNat_one hh
  constructor
  · intro heq
    have := congrArg BitVec.toNat heq
    rwa [toNat_and, h1, and_one_is_mod] at this
  · intro hmod
    apply eq_of_toNat_eq
    rw [toNat_and, h1, and_one_is_mod, hmod]

theorem sub_odd (hh : 0 < h) {x n : Chunk h} (hx : x.toNat % 2 = 1) (hn : n.toNat % 2 = 1) :
    ((x - n) >>> 1).toNat * 2 = (x - n).toNat ∧
      ((x - n).toNat + n.toNat = x.toNat ∨ (x - n).toNat + n.toNat = x.toNat + 2 ^ (2 * h)) := by
  have hB : 2 ^ (2 * h) % 2 = 0 := mod_eq_zero_of_dvd (dvd_pow_self 2 (by omega))
  have hsub : (x - n).toNat + n.toNat = x.toNat ∨ (x - n).toNat + n.toNat = x.toNat + 2 ^ (2 * h) := by
    rw [toNat_sub]
    rcases Nat.lt_or_ge x.toNat n.toNat with hlt | hge
    · rw [mod_eq_of_lt (by omega)]
      omega
    · rw [show 2 ^ (2 * h) - n.toNat + x.toNat = x.toNat - n.toNat + 2 ^ (2 * h) by omega,
        add_mod_right, mod_eq_of_lt (by omega)]
      omega
  rw [toNat_shr, pow_one]
  omega

theorem toNat_or_highbit (hh : 0 < h) (x : Chunk h) :
    ((x >>> 1) ||| highbit).toNat = x.toNat / 2 + 2 ^ (2 * h - 1) := by
  have hpow : 2 ^ (2 * h) = 2 * 2 ^ (2 * h - 1) := by
    rw [← Nat.pow_succ', succ_eq_add_one, Nat.sub_add_cancel (by omega)]
  have hlt : x.toNat / 2 < 2 ^ (2 * h - 1) := by omega
  have hor := two_pow_add_eq_or_of_lt hlt 1
  rw [Nat.mul_one] at hor
  rw [toNat_or, toNat_shr, pow_one, highbit, toNat_ofNat, mod_eq_of_lt (by omega), Nat.or_comm]
  omega

/-- Each step of the loop of `big_n0` finds a bit of the inverse. -/
theorem n0Loop_spec (hh : 0 < h) {n : Chunk h} (hn : n.toNat % 2 = 1) :
    ∀ (k i : ℕ) (result tmp : Chunk h) (r : ℕ),
    2 * h = i + k → result.toNat = r * 2 ^ k → 2 ^ (2 * h) ∣ r * n.toNat + 2 ^ i * tmp.toNat + 1 →
    2 ^ (2 * h) ∣ (n0Loop n k result tmp).toNat * n.toNat + 1
  | 0, i, result, tmp, r, hi, hr, hdvd => by
    rw [n0Loop, hr, pow_zero, Nat.mul_one]
    rw [show i = 2 * h by omega, Nat.add_right_comm] at hdvd
    exact (Nat.dvd_add_left (Nat.dvd_mul_right _ _)).1 hdvd
  | k + 1, i, result, tmp, r, hi, hr, hdvd => by
    have hhalf : result.toNat / 2 = r * 2 ^ k := by
      rw [hr, pow_succ, ← mul_assoc, Nat.mul_div_cancel _ (by decide)]
    rw [n0Loop]
    by_cases hbit : tmp &&& 1 = 1
    · rw [if_pos hbit]
      rw [and_one_eq hh] at hbit
      obtain ⟨heven, hsub⟩ := sub_odd hh hbit hn
      refine n0Loop_spec hh hn k (i + 1) _ _ (r + 2 ^ i) (by omega) ?_ ?_
      · rw [toNat_or_highbit hh, hhalf, Nat.add_mul, ← pow_add, show i + k = 2 * h - 1 by omega]
      have hsum : (r + 2 ^ i) * n.toNat + 2 ^ (i + 1) * ((tmp - n) >>> 1).toNat + 1 =
          r * n.toNat + 2 ^ i * ((tmp - n).toNat + n.toNat) + 1 := by
        rw [← heven]
        ring
      rw [hsum]
      rcases hsub with hs | hs
      · rwa [hs]
      · rw [hs, Nat.mul_add, ← add_assoc, Nat.add_right_comm]
        exact Nat.dvd_add hdvd (Nat.dvd_mul_left _ _)
    · rw [if_neg hbit]
      rw [and_one_eq hh] at hbit
      refine n0Loop_spec hh hn k (i + 1) _ _ r (by omega) ?_ ?_
      · rw [toNat_shr, pow_one, hhalf]
      have htmp : (tmp >>> 1).toNat * 2 = tmp.toNat := by
        rw [toNat_shr, pow_one]
        omega
      have hsum : 2 ^ (i + 1) * (tmp >>> 1).toNat = 2 ^ i * tmp.toNat := by
        rw [← htmp]
        ring
      rwa [hsum]

theorem bigN0_spec (hh : 0 < h) {n : Chunk h} (hn : n.toNat % 2 = 1) :
    2 ^ (2 * h) ∣ (bigN0 n).toNat * n.toNat + 1 := by
  have hB := Nat.two_pow_pos (2 * h)
  refine n0Loop_spec hh hn (2 * h) 0 0 (~~~0) 0 (by omega) (by simp) ?_
  rw [toNat_not, toNat_zero, pow_zero, Nat.zero_mul, Nat.zero_add, Nat.one_mul, Nat.sub_zero,
    Nat.sub_add_cancel hB]

theorem num_mod (v : List (Chunk h)) : num v ≡ (v.getD 0 0).toNat [MOD 2 ^ (2 * h)] := by
  cases v with
  | nil => simp [ModEq]
  | cons d v => exact add_mul_mod_self_left _ _ _

theorem modulus_bigN0 (hh : 0 < h) {n : Bignum h} (hn : n.value ≠ []) (hodd : n.abs % 2 = 1) :
    Modulus n (bigN0 (n.value.getD 0 0)) := by
  have hmod := num_mod n.value
  have hlow : (n.value.getD 0 0).toNat % 2 = 1 := by
    rw [← hodd]
    exact (hmod.of_dvd (dvd_pow_self 2 (by omega))).symm
  refine ⟨hn, hodd, ?_⟩
  have hmul : (bigN0 (n.value.getD 0 0)).toNat * n.abs + 1 ≡
      (bigN0 (n.value.getD 0 0)).toNat * (n.value.getD 0 0).toNat + 1 [MOD 2 ^ (2 * h)] :=
    (hmod.mul_left _).add_right 1
  exact (hmul.dvd_iff dvd_rfl).2 (bigN0_spec hh hlow)

theorem num_radix_sq (hh : 0 < h) (m : ℕ) :
    num (List.replicate (2 * m) 0 ++ [(1 : Chunk h)]) =
    ((2 ^ (2 * h)) ^ m) * (2 ^ (2 * h)) ^ m := by
  rw [num_concat, num_replicate_zero, length_replicate, toNat_one hh, Nat.zero_add, Nat.mul_one,
    ← pow_add, Nat.two_mul m]

theorem bigMontRr_spec (hh : 0 < h) {n : Bignum h} (hn : n.value ≠ []) (h0 : n.abs ≠ 0) :
    ∃ rr, bigMontRr n = some rr ∧ rr.abs = n.radix * n.radix % n.abs ∧ rr.value ≠ [] ∧ rr.sign = 1 := by
  have hne : (⟨1, List.replicate (2 * n.len) 0 ++ [1]⟩ : Bignum h).value ≠ [] := by simp
  obtain ⟨q, r, heq, -, hr, -, hs, -, ht⟩ := bigDivPos_spec hh hne hn h0
  unfold bigMontRr
  dsimp only
  rw [heq]
  refine ⟨_, rfl, ?_, (trimmed_trim ht.ne_nil).ne_nil, hs⟩
  change num (trim r.value) = _
  rw [num_trim, show num r.value = r.abs from rfl, hr, Bignum.abs, num_radix_sq hh]

section Conv

variable (ops : VecOps h) {n : Bignum h} {n0 : Chunk h}

theorem bigMontConv_spec (hh : 0 < h) (hn : Modulus n n0) (intel : Bool) {a rr : Bignum h}
    (ha : a.value ≠ [])
    (hle : a.abs ≤ n.abs) (hs : a.sign = 1) (hrr : rr.abs = n.radix * n.radix % n.abs) (hne : rr.value ≠ [])
    (hsr : rr.sign = 1) :
    ∃ r, bigMontConv ops intel a n n0 (some rr) = some r ∧
      Redc n.abs n.radix (n.radix * n.radix % n.abs * a.abs) r.abs ∧ r.value ≠ [] ∧ r.sign = 1 := by
  have hN0 : 0 < n.abs := Nat.pos_of_ne_zero fun h0 => by simpa [h0] using hn.odd
  have hprod : rr.abs * a.abs ≤ n.abs * n.abs := Nat.mul_le_mul (hrr ▸ (mod_lt _ hN0).le) hle
  obtain ⟨r, heq, hredc, ht, hsign⟩ := bigMontMul_spec ops hh hn intel hne ha hprod
  unfold bigMontConv
  dsimp only [bind_eq_bind, bind_some]
  rw [heq]
  refine ⟨_, rfl, ?_, (trimmed_trim ht.ne_nil).ne_nil, ?_⟩
  · change Redc _ _ _ (num (trim r.value))
    rwa [num_trim, ← hrr]
  · change r.sign = 1
    rw [hsign, hs, hsr]
    simp

end Conv

end Osol.Big
