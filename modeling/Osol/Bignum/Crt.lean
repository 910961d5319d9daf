import Osol.Bignum.Modexp

/-!
# The private operation of RSA

`big_modexp_crt` raises to the power modulo each of the two primes, and puts the residues together
with the inverse of the one prime modulo the other. A base that is shorter than the product of the
primes has that product added first.
-/

namespace Osol.Big

open Osol.Lib List Option Nat Bool

/-! ## The numbers -/

variable {p d : ℕ}

theorem pow_mod_pred (hp : p.Prime) (hd : d % (p - 1) ≠ 0) (a : ℕ) : a ^ (d % (p - 1)) ≡ a ^ d [MOD p] := by
  have hd0 : d ≠ 0 := fun h0 => hd (by rw [h0, zero_mod])
  by_cases hdvd : p ∣ a
  · exact (Nat.modEq_zero_iff_dvd.2 (dvd_pow hdvd hd)).trans
      (Nat.modEq_zero_iff_dvd.2 (dvd_pow hdvd hd0)).symm
  have hcop : Coprime a p := ((Nat.Prime.coprime_iff_not_dvd hp).2 hdvd).symm
  have hfermat : a ^ (p - 1) ≡ 1 [MOD p] := by
    rw [← totient_prime hp]
    exact ModEq.pow_totient hcop
  calc a ^ (d % (p - 1)) = 1 ^ (d / (p - 1)) * a ^ (d % (p - 1)) := by rw [one_pow, Nat.one_mul]
    _ ≡ (a ^ (p - 1)) ^ (d / (p - 1)) * a ^ (d % (p - 1)) [MOD p] := ((hfermat.symm).pow _).mul_right _
    _ = a ^ d := by rw [← pow_mul, ← pow_add, div_add_mod]

variable {m : ℕ}

theorem mod_pred_ne_zero (hp : 2 < p) (hd : Coprime d ((p - 1) * m)) : d % (p - 1) ≠ 0 := by
  intro h0
  have h1 : p - 1 ∣ Nat.gcd d ((p - 1) * m) := Nat.dvd_gcd (dvd_of_mod_eq_zero h0) (Nat.dvd_mul_right _ _)
  rw [hd.gcd_eq_one] at h1
  have := le_of_dvd one_pos h1
  omega

theorem crt_combine {q x ap aq pinv : ℕ} (hpq : Coprime p q) (hap : ap < p) (hm : m < q)
    (hapx : ap ≡ x [MOD p]) (haqx : aq ≡ x [MOD q]) (hinv : p * pinv ≡ 1 [MOD q])
    (hmod : (m : ℤ) ≡ ((aq : ℤ) - ap) * pinv [ZMOD q]) : ap + m * p = x % (p * q) := by
  have hlt : ap + m * p < p * q := by nlinarith
  have hp : ap + m * p ≡ x [MOD p] := by
    refine Nat.ModEq.trans ?_ hapx
    exact add_mul_mod_self_right _ _ _
  have hq : ap + m * p ≡ x [MOD q] := by
    rw [← Int.natCast_modEq_iff] at haqx hinv ⊢
    calc (ap : ℤ) + m * p ≡ ap + ((aq : ℤ) - ap) * pinv * p [ZMOD q] := (hmod.mul_right _).add_left _
      _ = ap + ((aq : ℤ) - ap) * (p * pinv) := by ring
      _ ≡ ap + ((aq : ℤ) - ap) * 1 [ZMOD q] := (hinv.mul_left _).add_left _
      _ = aq := by ring
      _ ≡ x [ZMOD q] := haqx
  have hpq' := (modEq_and_modEq_iff_modEq_mul hpq).1 ⟨hp, hq⟩
  rw [← hpq', mod_eq_of_lt hlt]

theorem crt_sign {q t t0 : ℕ} {s : ℤ} (hq : 0 < q) (ht : t0 = t % q) (hs : s = 1 ∨ s = -1) :
    ((if s = -1 ∧ t0 ≠ 0 then q - t0 else t0 : ℕ) : ℤ) ≡ s * t [ZMOD q] ∧
      (if s = -1 ∧ t0 ≠ 0 then q - t0 else t0) < q := by
  have hlt : t0 < q := ht ▸ mod_lt _ hq
  have hmod : (t0 : ℤ) ≡ t [ZMOD q] := by
    rw [ht]
    exact Int.natCast_modEq_iff.2 (mod_modEq _ _)
  rcases hs with rfl | rfl
  · rw [if_neg (by simp), one_mul]
    exact ⟨hmod, hlt⟩
  by_cases h0 : t0 = 0
  · rw [if_neg (by simp [h0])]
    refine ⟨?_, hlt⟩
    rw [h0] at hmod ⊢
    simpa using hmod.neg
  · rw [if_pos ⟨rfl, h0⟩]
    refine ⟨?_, by omega⟩
    rw [cast_sub hlt.le]
    calc ((q : ℤ) - t0) ≡ 0 - t [ZMOD q] := (by simp [Int.ModEq] : (q : ℤ) ≡ 0 [ZMOD q]).sub hmod
      _ = -1 * t := by ring

variable {h : ℕ}

/-! ## Signed sums and differences -/

theorem addAbs_ne_nil (hh : 0 < h) {aa bb : Bignum h} (ha : aa.value ≠ []) :
    (bigAddAbs aa bb).value ≠ [] := by
  have hlen := length_pos_iff.2 ha
  obtain ⟨hl, -, -⟩ := addVec_spec hh aa.value bb.value 0 (.inl toNat_zero)
  unfold bigAddAbs
  dsimp only
  apply length_pos_iff.1
  split
  · simp
  · omega

theorem bigSub_spec (hh : 0 < h) {aa bb : Bignum h} (hsa : aa.sign = 1) (hsb : bb.sign = 1)
    (ha : aa.value ≠ []) (hb : bb.value ≠ []) :
    ∃ r, bigSub aa bb = some r ∧ r.value ≠ [] ∧ (r.sign = 1 ∨ r.sign = -1) ∧
      r.sign * (r.abs : ℤ) = (aa.abs : ℤ) - bb.abs := by
  unfold bigSub
  rw [if_neg (by simp [hsb]), if_neg (by simp [hsa]), if_pos ⟨hsa, hsb⟩]
  by_cases hle : bb.abs ≤ aa.abs
  · obtain ⟨r, heq, -, hl, hr⟩ := bigSubPos_spec hh hle
    rw [if_pos ((cmpAbs_ne_lt _ _).2 hle), heq]
    refine ⟨_, rfl, ?_, .inl rfl, ?_⟩
    · exact length_pos_iff.1 (hl.trans_gt (length_pos_iff.2 ha))
    · change (1 : ℤ) * (r.abs : ℤ) = _
      omega
  obtain ⟨r, heq, -, hl, hr⟩ := bigSubPos_spec hh (Nat.le_of_not_le hle)
  rw [if_neg (by rw [cmpAbs_ne_lt]; exact hle), heq]
  refine ⟨_, rfl, ?_, .inr rfl, ?_⟩
  · exact length_pos_iff.1 (hl.trans_gt (length_pos_iff.2 hb))
  · change (-1 : ℤ) * (r.abs : ℤ) = _
    omega

theorem bigIsZero_iff (n : Bignum h) : bigIsZero n = true ↔ n.abs = 0 := by
  unfold bigIsZero Bignum.abs
  induction n.value with
  | nil => simp
  | cons d v ih =>
    have hB := Nat.two_pow_pos (2 * h)
    rw [all_cons, and_eq_true, ih, num_cons, Nat.add_eq_zero_iff, Nat.mul_eq_zero, decide_eq_true_iff]
    have hd : d = 0 ↔ d.toNat = 0 :=
      ⟨fun h0 => by rw [h0, toNat_zero], fun h0 => BitVec.eq_of_toNat_eq (by rw [h0, toNat_zero])⟩
    rw [hd]
    constructor
    · rintro ⟨h0, h1⟩
      exact ⟨h0, .inr h1⟩
    · rintro ⟨h0, h1⟩
      exact ⟨h0, h1.resolve_left hB.ne'⟩

theorem not_bigIsZero (n : Bignum h) : (!bigIsZero n) = true ↔ n.abs ≠ 0 := by
  rw [Ne, ← bigIsZero_iff, not_eq_true', not_eq_true]

/-! ## The private operation -/

/-- The private key that the arguments are to form. -/
structure CrtKey (d : ℕ) (dmodpminus1 dmodqminus1 p q pinvmodq : Bignum h) : Prop where
  p_prime : p.abs.Prime
  q_prime : q.abs.Prime
  p_odd : p.abs ≠ 2
  q_odd : q.abs ≠ 2
  ne : p.abs ≠ q.abs
  coprime : Coprime d ((p.abs - 1) * (q.abs - 1))
  dmodp : dmodpminus1.abs = d % (p.abs - 1)
  dmodq : dmodqminus1.abs = d % (q.abs - 1)
  pinv_lt : pinvmodq.abs < q.abs
  pinv : p.abs * pinvmodq.abs ≡ 1 [MOD q.abs]
  p_sign : p.sign = 1
  q_sign : q.sign = 1
  pinv_sign : pinvmodq.sign = 1
  dmodp_ne_nil : dmodpminus1.value ≠ []
  dmodq_ne_nil : dmodqminus1.value ≠ []
  p_ne_nil : p.value ≠ []
  q_ne_nil : q.value ≠ []
  pinv_ne_nil : pinvmodq.value ≠ []

section Crt

variable (ops : VecOps h) (hh : 0 < h) (intel : Bool)

include hh

theorem crt_base {a p q : Bignum h} (hs : a.sign = 1) (hps : p.sign = 1) (hqs : q.sign = 1)
    (ha : a.value ≠ []) (hp : p.value ≠ []) (hq : q.value ≠ []) :
    ∃ a', (if trimLen p.len a.value a.len < p.len + q.len then bigAdd (bigMul ops p q) a
      else some a) = some a' ∧ a'.value ≠ [] ∧ a'.sign = 1 ∧ a'.abs ≡ a.abs [MOD p.abs * q.abs] := by
  split
  · obtain ⟨habs, ht, hsign⟩ := bigMul_spec ops hh hp hq
    rw [hps, hqs, mul_one, ite_self] at hsign
    unfold bigAdd
    rw [if_neg (by simp [hs]), if_pos ⟨hsign, hs⟩]
    refine ⟨_, rfl, addAbs_ne_nil hh ht.ne_nil, rfl, ?_⟩
    change (bigAddAbs _ _).abs ≡ _ [MOD _]
    rw [bigAddAbs_abs hh, habs]
    exact add_mod_left _ _
  · exact ⟨a, rfl, ha, hs, rfl⟩

theorem crt_half {a' p dp : Bignum h} {pRr : Option (Bignum h)} (hp : p.abs.Prime) (hodd : p.abs ≠ 2)
    (hd : Coprime d ((p.abs - 1) * m)) (hdp : dp.abs = d % (p.abs - 1)) (hdne : dp.value ≠ [])
    (hpne : p.value ≠ []) (ha : a'.value ≠ []) (hs : a'.sign = 1)
    (hrr : pRr = none ∨ pRr = bigMontRr (bigCopy p)) :
    ∃ q ap r, bigDivPos a' p = some (q, ap) ∧ bigModexp ops intel ap dp (bigCopy p) pRr = some r ∧
      r.sign = 1 ∧ r.value ≠ [] ∧ r.abs < p.abs ∧ r.abs ≡ a'.abs ^ d [MOD p.abs] := by
  have htwo := hp.two_le
  have habs : (bigCopy p).abs = p.abs := num_trim p.value
  have hmod2 : (bigCopy p).abs % 2 = 1 := by
    rw [habs]
    exact (hp.eq_two_or_odd).resolve_left hodd
  obtain ⟨q, ap, heq, -, hap, -, hsap, -, hapt⟩ := bigDivPos_spec hh ha hpne (by omega)
  obtain ⟨r, heq', hrt, hrs, hr⟩ :=
    bigModexp_spec ops hh intel (trimmed_trim hpne) hmod2 hapt.ne_nil (hsap.trans hs) hdne hrr
  have hlt : ap.abs < p.abs := hap ▸ mod_lt _ (by omega)
  have hcase : ¬ p.abs ∣ ap.abs ^ dp.abs ∨ p.abs ∣ ap.abs ∧ ap.abs ≠ p.abs := by
    by_cases hdvd : p.abs ∣ ap.abs ^ dp.abs
    · exact .inr ⟨hp.dvd_of_dvd_pow hdvd, hlt.ne⟩
    · exact .inl hdvd
  rw [habs, if_pos (.inr hcase)] at hr
  refine ⟨q, ap, r, heq, heq', hrs, hrt.ne_nil, hr ▸ mod_lt _ (by omega), ?_⟩
  calc r.abs ≡ ap.abs ^ (d % (p.abs - 1)) [MOD p.abs] := by rw [hr, hdp]; exact mod_modEq _ _
    _ ≡ ap.abs ^ d [MOD p.abs] := pow_mod_pred hp (mod_pred_ne_zero (by omega) hd) _
    _ ≡ a'.abs ^ d [MOD p.abs] := by rw [hap]; exact (mod_modEq _ _).pow d

theorem crt_join {ap aq p q pinvmodq : Bignum h} {x : ℕ} (hpq : Coprime p.abs q.abs) (hsp : ap.sign = 1)
    (hsq : aq.sign = 1) (hpinvs : pinvmodq.sign = 1) (hapne : ap.value ≠ []) (haqne : aq.value ≠ [])
    (hpne : p.value ≠ []) (hqne : q.value ≠ []) (hpinvne : pinvmodq.value ≠ []) (hap : ap.abs < p.abs)
    (hq0 : 0 < q.abs) (hapx : ap.abs ≡ x [MOD p.abs]) (haqx : aq.abs ≡ x [MOD q.abs])
    (hinv : p.abs * pinvmodq.abs ≡ 1 [MOD q.abs]) :
    ∃ tmp quot t m, bigSub aq ap = some tmp ∧
      bigDivPos { bigMul ops tmp pinvmodq with sign := 1 } q = some (quot, t) ∧
      (if (bigMul ops tmp pinvmodq).sign = -1 ∧ !bigIsZero t then bigSubPos q t else some t) = some m ∧
      (bigAddAbs ap (bigMul ops m p)).abs = x % (p.abs * q.abs) := by
  obtain ⟨tmp, heq, htne, htsign, hdiff⟩ := bigSub_spec hh hsq hsp haqne hapne
  obtain ⟨hmul, hmt, hms⟩ := bigMul_spec ops hh htne hpinvne
  have hmne : ({ bigMul ops tmp pinvmodq with sign := 1 } : Bignum h).value ≠ [] := hmt.ne_nil
  obtain ⟨quot, t, heq', -, ht, -, -, -, htt⟩ := bigDivPos_spec hh hmne hqne (by omega)
  replace ht : t.abs = tmp.abs * pinvmodq.abs % q.abs := ht.trans (by rw [← hmul]; rfl)
  generalize hsign : (bigMul ops tmp pinvmodq).sign = s at hms
  rw [hpinvs, mul_one] at hms
  have hs : s = 1 ∨ s = -1 := by
    rw [hms]
    split
    · exact .inl rfl
    · exact htsign
  have hprod : s * (tmp.abs * pinvmodq.abs : ℕ) = ((aq.abs : ℤ) - ap.abs) * pinvmodq.abs := by
    rw [← hdiff, hms]
    split
    · rename_i h0
      have h0' : (tmp.abs : ℤ) * pinvmodq.abs = 0 := by exact_mod_cast h0
      rw [h0, mul_assoc, h0']
      simp
    · push_cast
      ring
  obtain ⟨hmod, hlt⟩ := crt_sign hq0 ht hs
  rw [hprod] at hmod
  have hm : ∃ m, (if s = -1 ∧ !bigIsZero t then bigSubPos q t else some t) = some m ∧ m.value ≠ [] ∧
      m.abs = if s = -1 ∧ t.abs ≠ 0 then q.abs - t.abs else t.abs := by
    by_cases hneg : s = -1 ∧ t.abs ≠ 0
    · obtain ⟨m, hm, -, hml, hmabs⟩ := bigSubPos_spec hh (ht ▸ (mod_lt _ hq0).le : t.abs ≤ q.abs)
      refine ⟨m, ?_, length_pos_iff.1 (hml.trans_gt (length_pos_iff.2 hqne)), by rw [if_pos hneg, hmabs]⟩
      rw [if_pos ⟨hneg.1, (not_bigIsZero t).2 hneg.2⟩, hm]
    · refine ⟨t, ?_, htt.ne_nil, by rw [if_neg hneg]⟩
      rw [if_neg (fun hc => hneg ⟨hc.1, (not_bigIsZero t).1 hc.2⟩)]
  obtain ⟨m, hmeq, hmnil, hmabs⟩ := hm
  refine ⟨tmp, quot, t, m, heq, heq', by rw [hsign]; exact hmeq, ?_⟩
  rw [bigAddAbs_abs hh, (bigMul_spec ops hh hmnil hpne).1, hmabs]
  exact crt_combine hpq hap hlt hapx haqx hinv hmod

/-- `big_modexp_crt` computes the private operation of RSA for every base. -/
theorem bigModexpCrt_exact {a dmodpminus1 dmodqminus1 p q pinvmodq : Bignum h}
    {pRr qRr : Option (Bignum h)} {d : ℕ}
    (hkey : CrtKey d dmodpminus1 dmodqminus1 p q pinvmodq) (ha : a.value ≠ []) (hs : a.sign = 1)
    (hpRr : pRr = none ∨ pRr = bigMontRr (bigCopy p)) (hqRr : qRr = none ∨ qRr = bigMontRr (bigCopy q)) :
    ∃ r, bigModexpCrt ops intel a dmodpminus1 dmodqminus1 p q pinvmodq pRr qRr = some r ∧
      r.sign = 1 ∧ r.abs = a.abs ^ d % (p.abs * q.abs) ∧ r.abs < p.abs * q.abs := by
  have hpq : Coprime p.abs q.abs := (coprime_primes hkey.p_prime hkey.q_prime).2 hkey.ne
  have hq0 := hkey.q_prime.pos
  have hN : 0 < p.abs * q.abs := Nat.mul_pos hkey.p_prime.pos hq0
  obtain ⟨a', heqa, hane, has, hamod⟩ :=
    crt_base ops hh hs hkey.p_sign hkey.q_sign ha hkey.p_ne_nil hkey.q_ne_nil
  obtain ⟨qp, ap, rp, heqp, hmodp, hsp, hrpne, hrplt, hrp⟩ :=
    crt_half ops hh intel hkey.p_prime hkey.p_odd hkey.coprime
    hkey.dmodp hkey.dmodp_ne_nil hkey.p_ne_nil hane has hpRr
  obtain ⟨qq, aq, rq, heqq, hmodq, hsq, hrqne, -, hrq⟩ := crt_half ops hh intel hkey.q_prime hkey.q_odd
    (by rw [Nat.mul_comm]; exact hkey.coprime) hkey.dmodq hkey.dmodq_ne_nil hkey.q_ne_nil hane has hqRr
  have hpc : (bigCopy p).abs = p.abs := num_trim p.value
  have hqc : (bigCopy q).abs = q.abs := num_trim q.value
  obtain ⟨tmp, quot, t, m, heq1, heq2, heq3, hres⟩ := crt_join ops hh (q := bigCopy q)
    (x := a'.abs ^ d) (by rwa [hpc, hqc]) hsp hsq hkey.pinv_sign hrpne hrqne
    (trimmed_trim hkey.p_ne_nil).ne_nil
    (trimmed_trim hkey.q_ne_nil).ne_nil hkey.pinv_ne_nil (by rwa [hpc]) (by rwa [hqc])
      (by rwa [hpc]) (by rwa [hqc])
    (by rw [hpc, hqc]; exact hkey.pinv)
  rw [hpc, hqc, hamod.pow d] at hres
  refine ⟨bigAddAbs rp (bigMul ops m (bigCopy p)), ?_, rfl, hres, hres ▸ mod_lt _ hN⟩
  have hlast : (if (bigMul ops tmp pinvmodq).sign = -1 ∧ (!bigIsZero t) = true then
      (bigSubPos (bigCopy q) t).bind fun aq => some (bigAddAbs rp (bigMul ops aq (bigCopy p)))
      else some (bigAddAbs rp (bigMul ops t (bigCopy p)))) =
        some (bigAddAbs rp (bigMul ops m (bigCopy p))) := by
    split at heq3
    · rename_i hneg
      rw [if_pos hneg, heq3, bind_some]
    · rename_i hneg
      rw [if_neg hneg, Option.some.inj heq3]
  unfold bigModexpCrt
  by_cases hlen : trimLen p.len a.value a.len < p.len + q.len
  · rw [if_pos hlen] at heqa
    simp only [hlen, if_true, heqa, bind_eq_bind, bind_some, heqp, heqq, hmodp, hmodq, heq1, heq2, hlast]
  · rw [if_neg hlen] at heqa
    cases heqa
    simp only [hlen, if_false, bind_eq_bind, bind_some, heqp, heqq, hmodp, hmodq, heq1, heq2, hlast]

omit hh in
theorem crtKey_35 : CrtKey (h := 16) 5 ⟨1, [1]⟩ ⟨1, [5]⟩ ⟨1, [5]⟩ ⟨1, [7]⟩ ⟨1, [3]⟩ where
  p_prime := prime_five
  q_prime := by change Nat.Prime 7; decide
  p_odd := by decide
  q_odd := by decide
  ne := by decide
  coprime := by decide
  dmodp := by decide
  dmodq := by decide
  pinv_lt := by decide
  pinv := by decide
  p_sign := rfl
  q_sign := rfl
  pinv_sign := rfl
  dmodp_ne_nil := by decide
  dmodq_ne_nil := by decide
  p_ne_nil := by decide
  q_ne_nil := by decide
  pinv_ne_nil := by decide

omit hh in
theorem bigModexpCrt_exact_35 :
    ∃ r, bigModexpCrt (genericOps 16) false ⟨1, [2]⟩ ⟨1, [1]⟩ ⟨1, [5]⟩ ⟨1, [5]⟩ ⟨1, [7]⟩
      ⟨1, [3]⟩ none none = some r ∧ r.sign = 1 ∧
      r.abs = (⟨1, [2]⟩ : Bignum 16).abs ^ 5 % ((⟨1, [5]⟩ : Bignum 16).abs * (⟨1, [7]⟩ : Bignum 16).abs) ∧
      r.abs < (⟨1, [5]⟩ : Bignum 16).abs * (⟨1, [7]⟩ : Bignum 16).abs :=
  bigModexpCrt_exact (genericOps 16) (by decide) false crtKey_35 (by decide) rfl (.inl rfl) (.inl rfl)

end Crt

end Osol.Big
