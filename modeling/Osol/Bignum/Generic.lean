import Osol.Bignum.Half

/-!
# The generic products

`big_mul_add_vec`, `big_mul_vec` and `big_sqr_vec` as they are in C, for chunks whose products
of halves fit a chunk: with the low half of the digit first, and then with the high half.
-/

namespace Osol.Big

open Osol.Lib List BitVec Nat

variable {h : ℕ}

/-- The first loop of `big_mul_add_vec`, with `cy1`. -/
def mulAddLow (dlow : Chunk h) : List (Chunk h) → List (Chunk h) → Chunk h → List (Chunk h) × Chunk h
  | r :: rs, a :: as, cy1 =>
    let cy := (cy1 >>> h) + dlow * (a &&& lowhalfbits) + (r &&& lowhalfbits)
    let cy1 := (cy >>> h) + dlow * (a >>> h) + (r >>> h)
    let rest := mulAddLow dlow rs as cy1
    (((cy &&& lowhalfbits) ||| (cy1 <<< h)) :: rest.1, rest.2)
  | _, _, cy1 => ([], cy1)

/-- The second loop and what follows it; `cy1` has the low half of the first word already. -/
def mulAddHigh (dhigh : Chunk h) : List (Chunk h) → List (Chunk h) → Chunk h → List (Chunk h) × Chunk h
  | r :: r' :: rs, a :: as, cy1 =>
    let cy := (cy1 >>> h) + dhigh * (a &&& lowhalfbits) + (r >>> h)
    let cy1' := (cy >>> h) + dhigh * (a >>> h) + (r' &&& lowhalfbits)
    let rest := mulAddHigh dhigh (r' :: rs) as cy1'
    (((cy1 &&& lowhalfbits) ||| (cy <<< h)) :: rest.1, rest.2)
  | [r], a :: _, cy1 =>
    let cy := (cy1 >>> h) + dhigh * (a &&& lowhalfbits) + (r >>> h)
    ([(cy1 &&& lowhalfbits) ||| (cy <<< h)], (cy >>> h) + dhigh * (a >>> h))
  | _, _, cy1 => ([], cy1)

def bigMulAddVec (r a : List (Chunk h)) (digit : Chunk h) : List (Chunk h) × Chunk h :=
  let first := mulAddLow (digit &&& lowhalfbits) r a 0
  let retcy := first.2 >>> h
  let second := mulAddHigh (digit >>> h) first.1 a (first.1.getD 0 0 &&& lowhalfbits)
  (second.1, second.2 + retcy)

/-- The rows of `big_mul_vec`: the words of the result from row `i` on, which is also where
`a * b[i]` is added. -/
def mulRows (a : List (Chunk h)) : List (Chunk h) → List (Chunk h) → List (Chunk h)
  | r, [] => r
  | r, b :: bs =>
    let row := bigMulAddVec r a b
    match row.1 ++ [row.2] with
    | [] => []
    | r0 :: rest => r0 :: mulRows a rest bs

def bigMulVec (a b : List (Chunk h)) : List (Chunk h) := mulRows a (replicate a.length 0) b

def bigSqrVec (a : List (Chunk h)) : List (Chunk h) := bigMulVec a a

theorem toNat_half_add_mul {x a b y : Chunk h} (hx : x.toNat < 2 ^ h) (ha : a.toNat < 2 ^ h)
    (hb : b.toNat < 2 ^ h) (hy : y.toNat < 2 ^ h) :
    (x + a * b + y).toNat = x.toNat + a.toNat * b.toNat + y.toNat := by
  have hle : a.toNat * b.toNat ≤ (2 ^ h - 1) * (2 ^ h - 1) := Nat.mul_le_mul (by omega) (by omega)
  have hlt : x.toNat + a.toNat * b.toNat + y.toNat < 2 ^ (2 * h) := by
    rw [two_pow_two_mul]
    obtain ⟨m, hm⟩ : ∃ m, 2 ^ h = m + 1 := ⟨2 ^ h - 1, by omega⟩
    rw [hm] at hle hx hy ⊢
    nlinarith
  rw [toNat_add, toNat_add, toNat_mul, add_mod_mod, mod_add_mod, mod_eq_of_lt hlt]

theorem low_lt (x : Chunk h) : (x &&& lowhalfbits).toNat < 2 ^ h := by
  rw [toNat_low]
  exact mod_lt _ (Nat.two_pow_pos h)

variable {d : Chunk h}

theorem mulAddLow_spec (hd : d.toNat < 2 ^ h) : ∀ (r a : List (Chunk h)) (cy1 : Chunk h),
    r.length = a.length → (mulAddLow d r a cy1).1.length = a.length ∧
      num (mulAddLow d r a cy1).1 + (2 ^ (2 * h)) ^ a.length * ((mulAddLow d r a cy1).2.toNat / 2 ^ h) =
        num r + num a * d.toNat + cy1.toNat / 2 ^ h
  | [], [], cy1, _ => ⟨rfl, by simp [mulAddLow]⟩
  | r :: rs, a :: as, cy1, hlen => by
    rw [mulAddLow]
    dsimp only
    generalize hcy : (cy1 >>> h) + d * (a &&& lowhalfbits) + (r &&& lowhalfbits) = cy
    generalize hcy' : (cy >>> h) + d * (a >>> h) + (r >>> h) = cy1'
    obtain ⟨hl, hnum⟩ := mulAddLow_spec hd rs as cy1' (by simpa using hlen)
    refine ⟨by rw [length_cons, length_cons, hl], ?_⟩
    have h1 : cy.toNat = cy1.toNat / 2 ^ h + d.toNat * (a.toNat % 2 ^ h) + r.toNat % 2 ^ h := by
      rw [← hcy, toNat_half_add_mul (high_lt _) hd (low_lt _) (low_lt _), toNat_shr, toNat_low, toNat_low]
    have h2 : cy1'.toNat = cy.toNat / 2 ^ h + d.toNat * (a.toNat / 2 ^ h) + r.toNat / 2 ^ h := by
      rw [← hcy', toNat_half_add_mul (high_lt _) hd (high_lt _) (high_lt _), toNat_shr, toNat_shr,
        toNat_shr]
    have h3 := mod_add_div cy.toNat (2 ^ h)
    have h4 := mod_add_div cy1'.toNat (2 ^ h)
    have h5 := mod_add_div a.toNat (2 ^ h)
    have h6 := mod_add_div r.toNat (2 ^ h)
    rw [num_cons, num_cons, num_cons, toNat_low_or_shl, length_cons, pow_succ']
    rw [two_pow_two_mul] at hnum ⊢
    linear_combination 2 ^ h * 2 ^ h * hnum + h3 + 2 ^ h * h4 + 2 ^ h * h2 + h1 + d.toNat * h5 + h6

theorem mulAddHigh_word {r a cy1 cy : Chunk h} (hd : d.toNat < 2 ^ h)
    (hcy : (cy1 >>> h) + d * (a &&& lowhalfbits) + (r >>> h) = cy) :
    cy1.toNat % 2 ^ h + 2 ^ h * (cy.toNat % 2 ^ h) +
        2 ^ h * 2 ^ h * (cy.toNat / 2 ^ h + d.toNat * (a.toNat / 2 ^ h)) =
      cy1.toNat + 2 ^ h * (r.toNat / 2 ^ h) + 2 ^ h * d.toNat * a.toNat := by
  have h1 : cy.toNat = cy1.toNat / 2 ^ h + d.toNat * (a.toNat % 2 ^ h) + r.toNat / 2 ^ h := by
    rw [← hcy, toNat_half_add_mul (high_lt _) hd (low_lt _) (high_lt _), toNat_shr, toNat_low, toNat_shr]
  have h3 := mod_add_div cy.toNat (2 ^ h)
  have h4 := mod_add_div cy1.toNat (2 ^ h)
  have h5 := mod_add_div a.toNat (2 ^ h)
  linear_combination 2 ^ h * h3 + 2 ^ h * h1 + h4 + 2 ^ h * d.toNat * h5

theorem mulAddHigh_spec (hd : d.toNat < 2 ^ h) : ∀ (r : Chunk h) (rs a : List (Chunk h))
    (cy1 : Chunk h), rs.length + 1 = a.length →
    (mulAddHigh d (r :: rs) a cy1).1.length = a.length ∧ num (mulAddHigh d (r :: rs) a cy1).1 +
          (2 ^ (2 * h)) ^ a.length * (mulAddHigh d (r :: rs) a cy1).2.toNat =
        cy1.toNat + 2 ^ h * (r.toNat / 2 ^ h) + 2 ^ (2 * h) * num rs + 2 ^ h * d.toNat * num a
  | r, [], a :: as, cy1, hlen => by
    obtain rfl : as = [] := length_eq_zero_iff.1 (by simpa using hlen.symm)
    rw [mulAddHigh]
    dsimp only
    generalize hcy : (cy1 >>> h) + d * (a &&& lowhalfbits) + (r >>> h) = cy
    have h1 := mulAddHigh_word hd hcy
    have h2 : ((cy >>> h) + d * (a >>> h)).toNat = cy.toNat / 2 ^ h + d.toNat * (a.toNat / 2 ^ h) := by
      rw [BitVec.add_comm, toNat_mul_half hd (high_lt _) (high_lt _), toNat_shr, toNat_shr, Nat.add_comm]
    refine ⟨rfl, ?_⟩
    rw [num_singleton, num_singleton, toNat_low_or_shl, h2, length_singleton, pow_one, two_pow_two_mul]
    simp only [num_nil]
    linear_combination h1
  | r, r' :: rs, a :: as, cy1, hlen => by
    rw [mulAddHigh]
    dsimp only
    generalize hcy : (cy1 >>> h) + d * (a &&& lowhalfbits) + (r >>> h) = cy
    generalize hcy' : (cy >>> h) + d * (a >>> h) + (r' &&& lowhalfbits) = cy1'
    have h1 := mulAddHigh_word hd hcy
    have h2 : cy1'.toNat = cy.toNat / 2 ^ h + d.toNat * (a.toNat / 2 ^ h) + r'.toNat % 2 ^ h := by
      rw [← hcy', toNat_half_add_mul (high_lt _) hd (high_lt _) (low_lt _), toNat_shr, toNat_shr, toNat_low]
    obtain ⟨hl, hnum⟩ := mulAddHigh_spec hd r' rs as cy1' (by simpa using hlen)
    have h6 := mod_add_div r'.toNat (2 ^ h)
    refine ⟨by rw [length_cons, length_cons, hl], ?_⟩
    rw [num_cons, num_cons, num_cons, toNat_low_or_shl, length_cons, pow_succ']
    rw [two_pow_two_mul] at hnum ⊢
    linear_combination 2 ^ h * 2 ^ h * hnum + 2 ^ h * 2 ^ h * h2 + h1 + 2 ^ h * 2 ^ h * h6

variable {a : List (Chunk h)}

theorem bigMulAddVec_spec {r : List (Chunk h)} (digit : Chunk h) (ha : a ≠ [])
    (hlen : r.length = a.length) : (bigMulAddVec r a digit).1.length = a.length ∧
      num (bigMulAddVec r a digit).1 + (2 ^ (2 * h)) ^ a.length * (bigMulAddVec r a digit).2.toNat =
        num r + num a * digit.toNat := by
  obtain ⟨hl, hnum⟩ := mulAddLow_spec (low_lt digit) r a 0 hlen
  unfold bigMulAddVec
  generalize mulAddLow (digit &&& lowhalfbits) r a 0 = first at hl hnum ⊢
  obtain ⟨v, cy⟩ := first
  dsimp only at hl hnum ⊢
  match v, hl with
  | r0 :: rs, hl =>
    rw [getD_cons_zero]
    obtain ⟨hl', hnum'⟩ := mulAddHigh_spec (high_lt digit) r0 rs a (r0 &&& lowhalfbits)
      (by rw [← hl, length_cons])
    generalize mulAddHigh (digit >>> h) (r0 :: rs) a (r0 &&& lowhalfbits) = second at hl' hnum' ⊢
    refine ⟨hl', ?_⟩
    rw [toNat_low, toNat_shr] at hnum'
    rw [toNat_low, toNat_zero, Nat.zero_div, Nat.add_zero, num_cons] at hnum
    have h1 := mod_add_div r0.toNat (2 ^ h)
    have h2 := mod_add_div digit.toNat (2 ^ h)
    -- The two carries do not overflow, since the sum does not.
    have htotal : num second.1 + (2 ^ (2 * h)) ^ a.length * (second.2.toNat + cy.toNat / 2 ^ h) =
        num r + num a * digit.toNat := by
      linear_combination hnum' + hnum + h1 + num a * h2
    have hfit : second.2.toNat + cy.toNat / 2 ^ h < 2 ^ (2 * h) := by
      have hr := num_lt r
      have ha := num_lt a
      rw [hlen] at hr
      by_contra hge
      have hge := Nat.mul_le_mul_left ((2 ^ (2 * h)) ^ a.length) (Nat.le_of_not_lt hge)
      have hmul : num a * digit.toNat ≤ ((2 ^ (2 * h)) ^ a.length - 1) * (2 ^ (2 * h) - 1) :=
        Nat.mul_le_mul (by omega) (by omega)
      generalize (2 ^ (2 * h)) ^ a.length = P at *
      obtain ⟨m, hm⟩ : ∃ m, 2 ^ (2 * h) = m + 1 :=
        ⟨2 ^ (2 * h) - 1, by have := Nat.two_pow_pos (2 * h); omega⟩
      obtain ⟨p, hp⟩ : ∃ p, P = p + 1 := ⟨P - 1, by omega⟩
      rw [hm, hp] at hmul hge
      rw [Nat.add_sub_cancel, Nat.add_sub_cancel] at hmul
      rw [hp] at htotal hr
      nlinarith
    rwa [toNat_add, toNat_shr, mod_eq_of_lt hfit]
  | [], hl => exact absurd (length_eq_zero_iff.1 hl.symm) ha

theorem mulRows_spec (ha : a ≠ []) : ∀ (b r : List (Chunk h)), r.length = a.length →
    (mulRows a r b).length = a.length + b.length ∧ num (mulRows a r b) = num r + num a * num b
  | [], r, hr => ⟨by simp [mulRows, hr], by simp [mulRows]⟩
  | b :: bs, r, hr => by
    obtain ⟨hl, hnum⟩ := bigMulAddVec_spec b ha hr
    rw [mulRows]
    generalize hw : (bigMulAddVec r a b).1 ++ [(bigMulAddVec r a b).2] = v
    have hlen : v.length = a.length + 1 := by rw [← hw, length_append, hl, length_singleton]
    have hv : num v = num r + num a * b.toNat := by rw [← hw, num_concat, hl, hnum]
    match v, hlen with
    | r0 :: rest, hlen =>
      obtain ⟨hl', hnum'⟩ := mulRows_spec ha bs rest (by simpa using hlen)
      refine ⟨by rw [length_cons, hl', length_cons]; omega, ?_⟩
      rw [num_cons] at hv
      rw [num_cons, num_cons, hnum']
      linear_combination hv

theorem bigMulVec_spec (b : List (Chunk h)) (ha : a ≠ []) :
    (bigMulVec a b).length = a.length + b.length ∧ num (bigMulVec a b) = num a * num b := by
  have := mulRows_spec ha b (replicate a.length 0) length_replicate
  rwa [num_replicate_zero, Nat.zero_add] at this

/-- The functions in C compute what is asked for. -/
def genericOps (h : ℕ) : VecOps h where
  mulAddVec := bigMulAddVec
  mulVec := bigMulVec
  sqrVec := bigSqrVec
  mulAddVec_length := fun _ _ digit ha hlen => (bigMulAddVec_spec digit ha hlen).1
  mulAddVec_num := fun _ _ digit ha hlen => (bigMulAddVec_spec digit ha hlen).2
  mulVec_length := fun _ b ha _ => (bigMulVec_spec b ha).1
  mulVec_num := fun _ b ha _ => (bigMulVec_spec b ha).2
  sqrVec_length := fun a ha => (bigMulVec_spec a (length_pos_iff.1 (by omega))).1
  sqrVec_num := fun a ha => (bigMulVec_spec a (length_pos_iff.1 (by omega))).2

end Osol.Big
