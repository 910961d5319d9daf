import Osol.Bignum.Crt

/-!
# Square roots and the Jacobi symbol

`big_sqrt_pos` bisects between the least and the greatest number with half the bits. When the square
of the middle is the number itself it copies the lower bound and not the middle, so that roots of
squares come out too small, but for the two numbers that the search begins with. `big_Jacobi_pos`
halves and reduces its numbers and keeps the sign from their lowest bits.
-/

namespace Osol.Big

open Osol.Lib List BitVec Option

variable {h : ℕ}

/-! ## The functions -/

/-- The loop of `big_half_pos`, from the top word down: `cy` for the word below, and the words. -/
def halfLoop : List (Chunk h) → Chunk h × List (Chunk h)
  | [] => (0, [])
  | ai :: a =>
    let (cy, r) := halfLoop a
    (ai <<< (2 * h - 1), (cy ||| (ai >>> 1)) :: r)

/-- `none` if there is no word. -/
def bigHalfPos (aa : Bignum h) : Option (Bignum h) :=
  let r := (halfLoop aa.value).2
  r.getLast?.map fun (top : Chunk h) => { aa with value := if top = 0 then r.dropLast else r }

/-- `t1` and `t2`, which `low` and `high` are at first. -/
def sqrtBounds (nrootbits : ℕ) : Bignum h × Bignum h :=
  let len := (nrootbits - 1) / (2 * h) + 1
  let highbits := nrootbits - 2 * h * (len - 1)
  let t1 := if highbits = 2 * h then highbit else (1 : Chunk h) <<< (highbits - 1)
  let t2 := if highbits = 2 * h then allOnes _ else 2 * t1 - 1
  (⟨1, List.replicate (len - 1) 0 ++ [t1]⟩, ⟨1, List.replicate (len - 1) (allOnes _) ++ [t2]⟩)

section

variable (ops : VecOps h) (n : Bignum h)

/-- The loop; whether `big_sub_pos` fails is not looked at. -/
def sqrtLoop : ℕ → Bignum h → Bignum h → Option (Bignum h)
  | 0, _, _ => none
  | fuel + 1, high, low =>
    if cmpAbs [1] (subVec high.value low.value 1).1 = .eq then some (bigCopy low)
    else do
      let mid ← bigHalfPos (bigAddAbs high low)
      match cmpAbs (bigMul ops mid mid).value n.value with
      | .gt => sqrtLoop fuel mid low
      | .lt => sqrtLoop fuel high mid
      | .eq => some (bigCopy low)

def bigSqrtPos : Option (Bignum h) :=
  let (low, high) := sqrtBounds ((bigNumbits n + 1) / 2)
  if cmpAbs (bigMul ops high high).value n.value ≠ .gt then some (bigCopy high)
  else sqrtLoop ops n high.abs high low

end

/-! ## Halves and bounds -/

/-- The loop leaves the words that `big_shiftright` by one leaves. -/
theorem halfLoop_cons (a0 : Chunk h) (a : List (Chunk h)) :
    (halfLoop (a0 :: a)).2 = shrVec 1 a (a0 >>> 1) := by
  induction a generalizing a0 with
  | nil => simp [halfLoop, shrVec]
  | cons x a ih =>
    rw [shrVec, ← ih x]
    rfl

theorem num_halfLoop (hh : 0 < h) {a : List (Chunk h)} (ha : a ≠ []) :
    (halfLoop a).2 ≠ [] ∧ num (halfLoop a).2 = num a / 2 := by
  obtain ⟨r, hr, hlen, hnum⟩ := bigShiftright_spec (show 1 ≤ 2 * h by omega) ha true (by omega)
  match a, ha with
  | a0 :: a, _ =>
    obtain rfl : shrVec 1 a (a0 >>> 1) = r := some.inj hr
    rw [halfLoop_cons]
    exact ⟨length_pos_iff.1 (by rw [hlen]; exact Nat.succ_pos _), by rwa [pow_one] at hnum⟩

theorem bigHalfPos_spec (hh : 0 < h) {aa : Bignum h} (ha : aa.value ≠ []) :
    ∃ r, bigHalfPos aa = some r ∧ r.abs = aa.abs / 2 := by
  obtain ⟨hne, hnum⟩ := num_halfLoop hh ha
  unfold bigHalfPos
  rw [Bignum.abs, ← hnum]
  generalize (halfLoop aa.value).2 = r at hne
  cases r using reverseRecOn with
  | nil => exact absurd rfl hne
  | append_singleton r x =>
    refine ⟨_, by simp only [getLast?_concat, Option.map_some]; rfl, ?_⟩
    rw [Bignum.abs]
    dsimp only
    split_ifs with h0
    · rw [dropLast_concat, h0, num_concat_zero]
    · rfl

theorem num_allOnes (k : ℕ) : num (List.replicate k (allOnes (2 * h))) + 1 = (2 ^ (2 * h)) ^ k := by
  induction k with
  | zero => rfl
  | succ k ih =>
    have := Nat.two_pow_pos (2 * h)
    rw [List.replicate_succ, num_cons, toNat_allOnes, pow_succ', ← ih, Nat.mul_add]
    omega

theorem sqrtBounds_spec (hh : 0 < h) (k : ℕ) : (sqrtBounds (h := h) (k + 1)).1.abs = 2 ^ k ∧
    (sqrtBounds (h := h) (k + 1)).2.abs + 1 = 2 * 2 ^ k := by
  have hk := Nat.div_add_mod k (2 * h)
  have hb := Nat.mod_lt k (show 0 < 2 * h by omega)
  have hpow : 2 ^ k = (2 ^ (2 * h)) ^ (k / (2 * h)) * 2 ^ (k % (2 * h)) := by rw [← pow_mul, ← pow_add, hk]
  unfold sqrtBounds Bignum.abs
  dsimp only
  rw [Nat.add_sub_cancel, Nat.add_sub_cancel, show k + 1 - 2 * h * (k / (2 * h)) = k % (2 * h) + 1 by omega]
  generalize k % (2 * h) = b at hb hpow ⊢
  have hlt : 2 ^ b < 2 ^ (2 * h) := Nat.pow_lt_pow_right one_lt_two hb
  obtain ⟨t1, ht1, h1⟩ : ∃ t1, t1 = (if b + 1 = 2 * h then highbit else (1 : Chunk h) <<< (b + 1 - 1)) ∧
      t1.toNat = 2 ^ b := by
    refine ⟨_, rfl, ?_⟩
    split
    · rw [show b = 2 * h - 1 by omega] at hlt ⊢
      rw [highbit, toNat_ofNat, Nat.mod_eq_of_lt hlt]
    · rw [toNat_shl, toNat_one hh, Nat.one_mul, Nat.add_sub_cancel, Nat.mod_eq_of_lt hlt]
  have h2 : (if b + 1 = 2 * h then allOnes _ else 2 * t1 - 1).toNat + 1 = 2 * 2 ^ b := by
    rw [← pow_succ']
    split_ifs with hb
    · rw [toNat_allOnes, hb, Nat.sub_add_cancel (Nat.two_pow_pos _)]
    · have hfit : 2 ^ (b + 1) < 2 ^ (2 * h) := Nat.pow_lt_pow_right one_lt_two (by omega)
      have htwo : 2 ^ 1 ≤ 2 ^ (b + 1) := Nat.pow_le_pow_right two_pos (by omega)
      have htwo' : (2 : Chunk h).toNat = 2 := Nat.mod_eq_of_lt (show 2 < 2 ^ (2 * h) by omega)
      rw [toNat_sub, toNat_mul, h1, toNat_one hh, htwo', ← pow_succ',
        Nat.mod_eq_of_lt hfit, show 2 ^ (2 * h) - 1 + 2 ^ (b + 1) =
        2 ^ (2 * h) + (2 ^ (b + 1) - 1) by omega,
        Nat.add_mod_left, Nat.mod_eq_of_lt (by omega)]
      omega
  rw [← ht1, num_concat, num_concat, num_replicate_zero, length_replicate, length_replicate, h1,
    hpow, Nat.mul_left_comm, ← h2, ← num_allOnes]
  exact ⟨Nat.zero_add _, by ring⟩

theorem root_bounds {nbits N : ℕ} (hlt : N < 2 ^ nbits) (hle : 2 ^ nbits ≤ 2 * N) (h1 : 1 ≤ N) :
    ∃ k, (nbits + 1) / 2 = k + 1 ∧ 2 ^ k * 2 ^ k ≤ N ∧ N < 2 * 2 ^ k * (2 * 2 ^ k) := by
  obtain ⟨k, hk⟩ : ∃ k, nbits = 2 * k + 1 ∨ nbits = 2 * k + 2 := by
    have : nbits ≠ 0 := by
      rintro rfl
      omega
    exact ⟨(nbits - 1) / 2, by omega⟩
  have hsq : 2 ^ (2 * k) = 2 ^ k * 2 ^ k := by rw [Nat.two_mul, pow_add]
  refine ⟨k, by omega, ?_⟩
  rw [show 2 * 2 ^ k * (2 * 2 ^ k) = 4 * (2 ^ k * 2 ^ k) by ring, ← hsq]
  rcases hk with rfl | rfl
  · rw [pow_succ] at hlt hle
    omega
  · rw [pow_add] at hlt hle
    omega

/-! ## The search -/

theorem ne_nil_of_abs {n : Bignum h} (hn : 0 < n.abs) : n.value ≠ [] := by
  rintro h0
  rw [Bignum.abs, h0, num_nil] at hn
  omega

theorem cmpAbs_square (hh : 0 < h) (ops : VecOps h) {m : Bignum h} (hm : 0 < m.abs) (n : Bignum h) :
    cmpAbs (bigMul ops m m).value n.value = compare (m.abs * m.abs) n.abs := by
  rw [cmpAbs_eq, ← (bigMul_spec ops hh (ne_nil_of_abs hm) (ne_nil_of_abs hm)).1]
  rfl

theorem sqrtLoop_spec (hh : 0 < h) (ops : VecOps h) (n : Bignum h) : ∀ (fuel : ℕ) (high low : Bignum h),
    high.abs - low.abs < fuel → 1 ≤ low.abs → low.abs * low.abs ≤ n.abs →
    n.abs < high.abs * high.abs → ∃ r, sqrtLoop ops n fuel high low = some r ∧
      (r.abs * r.abs ≤ n.abs ∧ n.abs < (r.abs + 1) * (r.abs + 1) ↔ ∀ s, s * s = n.abs → s = low.abs)
  | 0, _, _, hf, _, _, _ => by omega
  | fuel + 1, high, low, hf, hpos, hlow, hhigh => by
    have hlt : low.abs < high.abs := Nat.mul_self_lt_mul_self_iff.1 (hlow.trans_lt hhigh)
    have hsub : num (subVec high.value low.value 1).1 = high.abs - low.abs := (subVec_num hh hlt.le).2.2
    have hcopy : (bigCopy low).abs = low.abs := num_trim _
    rw [sqrtLoop]
    simp only [cmpAbs_eq_eq, hsub, num_singleton, toNat_one hh]
    by_cases hone : 1 = high.abs - low.abs
    · rw [show high.abs = low.abs + 1 by omega] at hhigh
      refine ⟨_, if_pos hone, ?_⟩
      rw [hcopy]
      refine ⟨fun _ s hs => ?_, fun _ => ⟨hlow, hhigh⟩⟩
      rw [← hs, Nat.mul_self_le_mul_self_iff] at hlow
      rw [← hs, Nat.mul_self_lt_mul_self_iff] at hhigh
      omega
    rw [if_neg hone]
    obtain ⟨mid, hhalf, hmid⟩ := bigHalfPos_spec hh
      (show (bigAddAbs high low).value ≠ [] from addAbs_ne_nil hh (ne_nil_of_abs (by omega)))
    rw [bigAddAbs_abs hh] at hmid
    rw [hhalf, bind_eq_bind, bind_some, cmpAbs_square hh ops (by omega)]
    cases hc : compare (mid.abs * mid.abs) n.abs with
    | gt => exact sqrtLoop_spec hh ops n fuel mid low (by omega) hpos hlow (Nat.compare_eq_gt.1 hc)
    | lt =>
      rw [Nat.compare_eq_lt] at hc
      obtain ⟨r, hr, hiff⟩ := sqrtLoop_spec hh ops n fuel high mid (by omega) (by omega) hc.le hhigh
      refine ⟨r, hr, hiff.trans (forall_congr' fun s => imp_congr_right fun hs => ?_)⟩
      have := Nat.mul_self_lt_mul_self_iff.1 (hs ▸ hc)
      omega
    | eq =>
      rw [Nat.compare_eq_eq] at hc
      refine ⟨_, rfl, ?_⟩
      rw [hcopy]
      refine ⟨fun hr => ?_, fun hs => ?_⟩
      · have := Nat.mul_self_lt_mul_self_iff.1 (hc ▸ hr.2)
        omega
      · have := hs _ hc
        omega

theorem bigSqrtPos_iff (hh : 0 < h) (ops : VecOps h) (n : Bignum h) (hn : 1 ≤ n.abs) :
    ∃ r, bigSqrtPos ops n = some r ∧
      (r.abs * r.abs ≤ n.abs ∧ n.abs < (r.abs + 1) * (r.abs + 1) ↔
        ∀ s, s * s = n.abs → ∃ k, s = 2 ^ k ∨ s + 1 = 2 ^ k) := by
  obtain ⟨hlt, hle⟩ := abs_numbits hh (ne_nil_of_abs hn)
  obtain ⟨k, hk, hlow, hhigh⟩ := root_bounds hlt (hle (by omega)) hn
  obtain ⟨h1, h2⟩ := sqrtBounds_spec hh k
  have hpos := Nat.two_pow_pos k
  unfold bigSqrtPos
  rw [hk]
  dsimp only
  generalize (sqrtBounds (k + 1)).1 = low at h1 ⊢
  generalize (sqrtBounds (k + 1)).2 = high at h2 ⊢
  rw [← h2] at hhigh
  simp only [cmpAbs_square hh ops (show 0 < high.abs by omega), Ne, Nat.compare_eq_gt, not_lt]
  split
  · rename_i hle
    refine ⟨_, rfl, ?_⟩
    rw [show (bigCopy high).abs = high.abs from num_trim _]
    refine ⟨fun _ s hs => ⟨k + 1, .inr ?_⟩, fun _ => ⟨hle, hhigh⟩⟩
    rw [← hs, Nat.mul_self_le_mul_self_iff] at hle
    rw [← hs, Nat.mul_self_lt_mul_self_iff] at hhigh
    rw [pow_succ']
    omega
  · rename_i hgt
    rw [← h1] at hlow hpos
    rw [not_le] at hgt
    obtain ⟨r, hr, hiff⟩ := sqrtLoop_spec hh ops n high.abs high low (by omega) hpos hlow hgt
    refine ⟨r, hr, hiff.trans (forall_congr' fun s => imp_congr_right fun hs => ?_)⟩
    refine ⟨fun hsl => ⟨k, .inl (hsl.trans h1)⟩, ?_⟩
    rw [← hs, Nat.mul_self_le_mul_self_iff] at hlow
    rw [← hs, Nat.mul_self_lt_mul_self_iff] at hgt
    rintro ⟨j, rfl | hj⟩
    · have : j < k + 1 := (Nat.pow_lt_pow_iff_right one_lt_two).1 (by rw [pow_succ']; omega)
      have : k ≤ j := (Nat.pow_le_pow_iff_right one_lt_two).1 (by omega)
      rw [h1, show j = k by omega]
    · have : j < k + 1 := (Nat.pow_lt_pow_iff_right one_lt_two).1 (by rw [pow_succ']; omega)
      have : k < j := (Nat.pow_lt_pow_iff_right one_lt_two).1 (by omega)
      omega

theorem bigSqrtPos_iff_two : ∃ r, bigSqrtPos (genericOps 16) ⟨1, [2]⟩ = some r ∧
    (r.abs * r.abs ≤ 2 ∧ 2 < (r.abs + 1) * (r.abs + 1) ↔ ∀ s, s * s = 2 → ∃ k, s = 2 ^ k ∨ s + 1 = 2 ^ k) :=
  bigSqrtPos_iff (by decide) (genericOps 16) ⟨1, [2]⟩ (by decide)

theorem bigSqrtPos_thirtySix : bigSqrtPos (genericOps 16) ⟨1, [36]⟩ = some ⟨1, [5]⟩ := by decide +kernel

/-! ## The Jacobi symbol -/

/-- `n->value[0] & mask`. -/
def lowBits (n : Bignum h) (mask : ℕ) : ℕ := (n.value.getD 0 0).toNat &&& mask

def jacobiLoop : ℕ → Bignum h → Bignum h → ℤ → Option ℤ
  | 0, _, _, _ => none
  | fuel + 1, n, m, jac =>
    if cmpAbs [1] m.value = .eq then some jac
    else if bigIsZero n then some 0
    else if lowBits m 1 = 0 then do
      let m' ← bigHalfPos m
      jacobiLoop fuel n m' (if lowBits n 7 = 3 ∨ lowBits n 7 = 5 then -jac else jac)
    else if lowBits n 1 = 0 then do
      let n' ← bigHalfPos n
      jacobiLoop fuel n' m (if lowBits m 7 = 3 ∨ lowBits m 7 = 5 then -jac else jac)
    else do
      let (_, r) ← bigDivPos m n
      jacobiLoop fuel r n (if lowBits m 3 = 3 ∧ lowBits n 3 = 3 then -jac else jac)

def bigJacobiPos (nn mm : Bignum h) : Option ℤ :=
  if bigIsZero nn ∨ lowBits nn 1 ||| lowBits mm 1 = 0 then some 0
  else jacobiLoop (2 * nn.abs + mm.abs + 1) (bigCopy nn) (bigCopy mm) 1

theorem lowBits_eq {k : ℕ} (hk : k ≤ 2 * h) (n : Bignum h) : lowBits n (2 ^ k - 1) = n.abs % 2 ^ k := by
  rw [lowBits, Nat.and_two_pow_sub_one_eq_mod, Bignum.abs]
  cases n.value with
  | nil => rfl
  | cons x v =>
    obtain ⟨c, hc⟩ := Nat.pow_dvd_pow 2 hk
    rw [num_cons, hc, Nat.mul_assoc, Nat.add_mul_mod_self_left]
    rfl

theorem flip_mul {c : Prop} [Decidable c] (j x : ℤ) :
    (if c then -j else j) * x = j * if c then -x else x := by
  split_ifs <;> ring

theorem jacobiLoop_spec (hh : 2 ≤ h) : ∀ (fuel : ℕ) (n m : Bignum h) (jac : ℤ), n.value ≠ [] →
    2 * n.abs + m.abs < fuel → m.abs % 2 = 1 →
    jacobiLoop fuel n m jac = some (jac * jacobiSym n.abs m.abs)
  | 0, _, _, _, _, hf, _ => by omega
  | fuel + 1, n, m, jac, hn, hf, hm => by
    have h1 : ∀ a : Bignum h, lowBits a 1 = a.abs % 2 := lowBits_eq (k := 1) (by omega)
    have h3 : ∀ a : Bignum h, lowBits a 3 = a.abs % 4 := lowBits_eq (k := 2) (by omega)
    have h7 : ∀ a : Bignum h, lowBits a 7 = a.abs % 8 := lowBits_eq (k := 3) (by omega)
    have hone : cmpAbs [1] m.value = .eq ↔ 1 = m.abs := by
      rw [cmpAbs_eq_eq, num_singleton, toNat_one (by omega)]
      rfl
    simp only [jacobiLoop, hone, bigIsZero_iff, h1, h3, h7, hm, one_ne_zero, if_false]
    by_cases hm1 : 1 = m.abs
    · rw [if_pos hm1, ← hm1, jacobiSym.one_right, Int.mul_one]
    by_cases hn0 : n.abs = 0
    · rw [if_neg hm1, if_pos hn0, hn0, Nat.cast_zero, jacobiSym.zero_left (by omega), Int.mul_zero]
    rw [if_neg hm1, if_neg hn0]
    by_cases heven : n.abs % 2 = 0
    · obtain ⟨n', hhalf, habs⟩ := bigHalfPos_spec (by omega) hn
      rw [if_pos heven, hhalf, bind_eq_bind, bind_some, jacobiLoop_spec hh fuel n' m _
        (ne_nil_of_abs (by omega)) (by omega) hm, habs, flip_mul,
        ← jacobiSym.even_odd (a := n.abs) (by omega) hm]
      rfl
    · obtain ⟨q, r, hdiv, -, habs, -, -, -, hr⟩ := bigDivPos_spec (by omega)
        (show m.value ≠ [] from ne_nil_of_abs (by omega)) hn hn0
      have hlt := Nat.mod_lt m.abs (show 0 < n.abs by omega)
      have hle := Nat.mod_le m.abs n.abs
      rw [if_neg heven, hdiv, bind_eq_bind, bind_some]
      rw [jacobiLoop_spec hh fuel r n _ hr.ne_nil (by omega) (by omega), habs, flip_mul,
        Int.natCast_mod, ← jacobiSym.mod_left, if_congr and_comm rfl rfl,
        jacobiSym.quadratic_reciprocity_if (by omega : n.abs % 2 = 1) hm]

theorem bigJacobiPos_eq (hh : 2 ≤ h) (nn mm : Bignum h) (hodd : mm.abs % 2 = 1) (h1 : 1 < mm.abs) :
    bigJacobiPos nn mm = some (jacobiSym nn.abs mm.abs) := by
  have hlow : lowBits nn 1 ||| lowBits mm 1 ≠ 0 := fun h0 => by
    rw [Nat.or_eq_zero_iff, show lowBits mm 1 = _ from lowBits_eq (k := 1) (by omega) mm] at h0
    omega
  have hcopy : ∀ a : Bignum h, (bigCopy a).abs = a.abs := fun a => num_trim _
  simp only [bigJacobiPos, bigIsZero_iff, hlow, or_false]
  split_ifs with h0
  · rw [h0, Nat.cast_zero, jacobiSym.zero_left h1]
  · rw [jacobiLoop_spec hh _ (bigCopy nn) _ 1 (ne_nil_of_abs (by rw [hcopy]; omega))
      (by rw [hcopy, hcopy]; omega) (by rw [hcopy]; exact hodd), Int.one_mul, hcopy, hcopy]

theorem bigJacobiPos_two : bigJacobiPos (⟨1, [2]⟩ : Bignum 16) ⟨1, [15]⟩ = some (jacobiSym 2 15) :=
  bigJacobiPos_eq (by decide) ⟨1, [2]⟩ ⟨1, [15]⟩ (by decide) (by decide)

end Osol.Big
