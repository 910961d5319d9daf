import Osol.Bignum.Mont
import Osol.Bignum.Generic

/-!
# Modular exponentiation

The bits of the exponent are taken in groups that begin and end with a one, with two counters of the
squarings that are due before and after the product with the power of the group. Every product is a
form of a power of the base, so that the result is the power modulo the modulus, but for the case
where Montgomery multiplication leaves the modulus in the place of zero.
-/

namespace Osol.Big

open Osol.Lib List Option Nat

variable {h : ℕ}

/-! ## The bits of the exponent -/

/-- The number with these bits, the highest first. -/
def bitsVal (bs : List Bool) : ℕ := bs.foldl (fun acc b => 2 * acc + b.toNat) 0

theorem bitsVal_concat (bs : List Bool) (b : Bool) : bitsVal (bs ++ [b]) = 2 * bitsVal bs + b.toNat := by
  simp [bitsVal]

theorem bitsVal_append (bs bs' : List Bool) :
    bitsVal (bs ++ bs') = bitsVal bs * 2 ^ bs'.length + bitsVal bs' := by
  induction bs' using reverseRecOn with
  | nil => simp [bitsVal]
  | append_singleton bs' b ih =>
    rw [← append_assoc, bitsVal_concat, bitsVal_concat, ih, length_append, length_singleton]
    ring

theorem bitsVal_word (x : Chunk h) (n : ℕ) :
    bitsVal ((range n).reverse.map x.getLsbD) = x.toNat % 2 ^ n := by
  induction n with
  | zero => simp [bitsVal, mod_one]
  | succ n ih =>
    have hbit : bitsVal [x.getLsbD n] = x.toNat / 2 ^ n % 2 := by
      rw [← toNat_testBit]
      simp [bitsVal, BitVec.getLsbD]
    rw [range_succ, reverse_append, reverse_singleton, singleton_append, map_cons,
      ← singleton_append, bitsVal_append, ih, length_map, length_reverse, length_range,
      mod_pow_succ, hbit]
    ring

theorem and_highbit (hh : 0 < h) (t : Chunk h) : t &&& highbit = 0 ↔ t.toNat < 2 ^ (2 * h - 1) :=
  and_two_pow_eq_zero (by omega) (by rw [Nat.sub_add_cancel (by omega)]; exact t.isLt)

theorem wordBits_spec (hh : 0 < h) :
    ∀ (j i x : ℕ) (t : Chunk h), 2 * h = i + j → t.toNat = x * 2 ^ i → x < 2 ^ j →
    match wordBits t j with
    | some r => x < 2 ^ r ∧ 2 ^ r ≤ 2 * x
    | none => x = 0
  | 0, i, x, t, _, _, hx => by
    rw [wordBits]
    simpa using hx
  | j + 1, i, x, t, hi, ht, hx => by
    rw [wordBits]
    by_cases hbit : t &&& highbit = 0
    · rw [if_pos hbit]
      rw [and_highbit hh, ht, show 2 * h - 1 = j + i by omega, pow_add] at hbit
      have hxj := Nat.lt_of_mul_lt_mul_right hbit
      refine wordBits_spec hh j (i + 1) x (t <<< 1) (by omega) ?_ hxj
      have hfit : x * 2 ^ (i + 1) < 2 ^ (2 * h) := by
        rw [show 2 * h = j + (i + 1) by omega, pow_add 2 j]
        exact Nat.mul_lt_mul_of_pos_right hxj (Nat.two_pow_pos _)
      rw [toNat_shl, ht, pow_one, mul_assoc, ← pow_succ, mod_eq_of_lt hfit]
    · rw [if_neg hbit]
      rw [and_highbit hh, ht, show 2 * h - 1 = j + i by omega, pow_add] at hbit
      have := Nat.le_of_mul_le_mul_right (not_lt.1 hbit) (Nat.two_pow_pos i)
      exact ⟨hx, by rw [pow_succ']; omega⟩

theorem topWord_spec (v : List (Chunk h)) : ∀ i, i < v.length → num (v.take (topWord v i + 1)) =
    num (v.take (i + 1)) ∧ topWord v i ≤ i ∧ (v.getD (topWord v i) 0 = 0 → topWord v i = 0)
  | 0, _ => ⟨rfl, le_rfl, fun _ => rfl⟩
  | i + 1, hi => by
    rw [topWord]
    by_cases h0 : v.getD (i + 1) 0 = 0
    · obtain ⟨hnum, hle, hz⟩ := topWord_spec v i (by omega)
      rw [if_neg (by simpa using h0)]
      refine ⟨?_, by omega, hz⟩
      rw [hnum, take_succ_eq_append_getElem hi, num_concat]
      rw [getD_eq_getElem _ _ hi] at h0
      rw [h0, toNat_zero, Nat.mul_zero]
      rfl
    · rw [if_pos h0]
      exact ⟨rfl, le_rfl, fun h' => absurd h' h0⟩

variable {e : Bignum h}

theorem abs_numbits (hh : 0 < h) (he : e.value ≠ []) :
    e.abs < 2 ^ bigNumbits e ∧ (e.abs ≠ 0 → 2 ^ bigNumbits e ≤ 2 * e.abs) := by
  have hlen : 0 < e.value.length := length_pos_iff.2 he
  obtain ⟨hnum, hle, hz⟩ := topWord_spec e.value (e.len - 1) (by rw [Bignum.len]; omega)
  rw [Bignum.len, Nat.sub_add_cancel hlen, take_length] at hnum
  unfold bigNumbits
  dsimp only
  rw [Bignum.len] at hle hz ⊢
  generalize topWord e.value (e.value.length - 1) = i at hnum hle hz ⊢
  have hi : i < e.value.length := by omega
  have hsplit : num e.value = num (e.value.take i) + (2 ^ (2 * h)) ^ i * (e.value.getD i 0).toNat := by
    rw [← hnum, take_succ_eq_append_getElem hi, num_concat, length_take_of_le hi.le, getD_eq_getElem _ _ hi]
  have hlow := num_lt (e.value.take i)
  rw [length_take_of_le hi.le] at hlow
  have hbits := wordBits_spec hh (2 * h) 0 (e.value.getD i 0).toNat (e.value.getD i 0) (by omega)
    (by rw [pow_zero, Nat.mul_one]) (BitVec.isLt _)
  rw [Bignum.abs, hsplit]
  generalize (e.value.getD i 0) = t at hbits hz ⊢
  cases hw : wordBits t (2 * h) with
  | some j =>
    rw [hw] at hbits
    have hpow : 2 ^ (2 * h * i + j) = (2 ^ (2 * h)) ^ i * 2 ^ j := by rw [pow_add, pow_mul 2 (2 * h)]
    have hhigh := Nat.mul_le_mul_left ((2 ^ (2 * h)) ^ i) hbits.2
    rw [← hpow, Nat.mul_left_comm] at hhigh
    refine ⟨?_, fun _ => by dsimp only; omega⟩
    calc num (e.value.take i) + (2 ^ (2 * h)) ^ i * t.toNat <
      (2 ^ (2 * h)) ^ i + (2 ^ (2 * h)) ^ i * t.toNat := by omega
      _ = (2 ^ (2 * h)) ^ i * (t.toNat + 1) := by ring
      _ ≤ (2 ^ (2 * h)) ^ i * 2 ^ j := Nat.mul_le_mul_left _ hbits.1
      _ = 2 ^ (2 * h * i + j) := hpow.symm
  | none =>
    rw [hw] at hbits
    rw [hz (BitVec.eq_of_toNat_eq (by rw [hbits, toNat_zero]))] at hlow ⊢
    rw [hbits]
    simp

theorem bitsVal_words (v : List (Chunk h)) (m : ℕ) :
    bitsVal ((range m).reverse.flatMap fun i => (range (2 * h)).reverse.map (v.getD i 0).getLsbD) =
        num v % (2 ^ (2 * h)) ^ m ∧
      ((range m).reverse.flatMap fun i => (range (2 * h)).reverse.map (v.getD i 0).getLsbD).length =
      2 * h * m := by
  induction m with
  | zero => simp [bitsVal, mod_one]
  | succ m ih =>
    obtain ⟨hv, hl⟩ := ih
    rw [range_succ, reverse_append, reverse_singleton, singleton_append, flatMap_cons]
    refine ⟨?_, ?_⟩
    · rw [bitsVal_append, hv, hl, bitsVal_word, toNat_getD, mod_mod, mod_pow_succ,
        pow_mul 2 (2 * h) m, Nat.mul_comm, Nat.add_comm]
    · rw [length_append, hl, length_map, length_reverse, length_range]
      ring

theorem bitsVal_expBits (hh : 0 < h) (he : e.value ≠ []) : bitsVal (expBits e) = e.abs := by
  have hlt := (abs_numbits hh he).1
  unfold expBits
  dsimp only
  generalize bigNumbits e = nbits at hlt ⊢
  generalize hm : nbits / (2 * h) = m
  have hnb : 2 ^ nbits = (2 ^ (2 * h)) ^ m * 2 ^ (nbits % (2 * h)) := by
    rw [← pow_mul, ← pow_add, ← hm, div_add_mod]
  have hrest : (range m).reverse.flatMap (fun i =>
      (range (if i = m then nbits % (2 * h) else 2 * h)).reverse.map fun j =>
      (e.value.getD i 0).getLsbD j) =
      (range m).reverse.flatMap fun i => (range (2 * h)).reverse.map (e.value.getD i 0).getLsbD := by
    apply flatMap_congr
    intro i hi
    rw [if_neg (by simp at hi; omega)]
  obtain ⟨hv, hl⟩ := bitsVal_words e.value m
  have htop : num e.value / (2 ^ (2 * h)) ^ m < 2 ^ (nbits % (2 * h)) := Nat.div_lt_of_lt_mul (hnb ▸ hlt)
  have hword : num e.value / (2 ^ (2 * h)) ^ m < 2 ^ (2 * h) :=
    htop.trans (Nat.pow_lt_pow_right (by decide) (mod_lt _ (by omega)))
  rw [range_succ, reverse_append, reverse_singleton, singleton_append, flatMap_cons, hrest,
    bitsVal_append, hv, hl, if_pos rfl, bitsVal_word, toNat_getD, mod_eq_of_lt hword, mod_eq_of_lt htop,
    pow_mul 2 (2 * h) m, Nat.mul_comm, Nat.add_comm, mod_add_div]
  rfl

/-! ## Forms of powers -/

/-- A number that is a Montgomery form of `A ^ k` for the modulus `n`. -/
structure IsPow (n : Bignum h) (A k : ℕ) (v : Bignum h) : Prop where
  pow : MontPow n.abs n.radix A k v.abs
  ne_nil : v.value ≠ []
  sign : v.sign = 1

theorem IsPow.copy {n v : Bignum h} {A k : ℕ} (hv : IsPow n A k v) : IsPow n A k (bigCopy v) := by
  refine ⟨?_, (trimmed_trim hv.ne_nil).ne_nil, hv.sign⟩
  change MontPow _ _ _ _ (num (trim v.value))
  rw [num_trim]
  exact hv.pow

section Pow

variable (ops : VecOps h) {n : Bignum h} {n0 : Chunk h} (hh : 0 < h) (hn : Modulus n n0)
  (intel : Bool) {A : ℕ}

include hh hn

theorem IsPow.mul {j k : ℕ} {v v' : Bignum h} (hv : IsPow n A j v) (hv' : IsPow n A k v') :
    ∃ r, bigMontMul ops intel v v' n n0 = some r ∧ IsPow n A (j + k) r := by
  obtain ⟨r, heq, hredc, ht, hs⟩ :=
    bigMontMul_spec ops hh hn intel hv.ne_nil hv'.ne_nil (hv.pow.mul_le hv'.pow)
  refine ⟨r, heq, hv.pow.mul (coprime_radix hn.odd) hv'.pow hredc, ht.ne_nil, ?_⟩
  rw [hs, hv.sign, hv'.sign]
  simp

theorem squares_spec : ∀ (m : ℕ) {k : ℕ} {v : Bignum h}, IsPow n A k v →
    ∃ r, squares ops intel n n0 m v = some r ∧ IsPow n A (k * 2 ^ m) r
  | 0, k, v, hv => ⟨v, rfl, by simpa using hv⟩
  | m + 1, k, v, hv => by
    obtain ⟨v', heq, hv'⟩ := hv.mul ops hh hn intel hv
    obtain ⟨r, heq', hr⟩ := squares_spec m hv'
    refine ⟨r, by rw [squares, heq]; exact heq', ?_⟩
    rwa [show k * 2 ^ (m + 1) = (k + k) * 2 ^ m by ring]

theorem oddPowers_spec {ma : Bignum h} (hma : IsPow n A 2 ma) : ∀ (m i : ℕ) {prev : Bignum h},
    IsPow n A (2 * i + 1) prev →
    ∃ l, oddPowers ops intel ma n n0 m prev = some l ∧ ∀ j ≤ m, ∃ v, l[j]? = some v ∧
    IsPow n A (2 * (i + j) + 1) v
  | 0, i, prev, hp => ⟨[prev], rfl,
      fun j hj => ⟨prev, by rw [le_zero.1 hj]; rfl, by rw [le_zero.1 hj]; exact hp⟩⟩
  | m + 1, i, prev, hp => by
    obtain ⟨next, heq, hnext⟩ := hma.mul ops hh hn intel hp
    have hcopy : IsPow n A (2 * (i + 1) + 1) (bigCopy next) := by
      rw [show 2 * (i + 1) + 1 = 2 + (2 * i + 1) by ring]
      exact hnext.copy
    obtain ⟨l, heq', hl⟩ := oddPowers_spec hma m (i + 1) hcopy
    refine ⟨prev :: l, by rw [oddPowers, heq]; dsimp only [bind_eq_bind, bind_some]; rw [heq']; rfl, ?_⟩
    intro j hj
    cases j with
    | zero => exact ⟨prev, rfl, hp⟩
    | succ j =>
      obtain ⟨v, hv, hpow⟩ := hl j (by omega)
      exact ⟨v, by rw [List.getElem?_cons_succ]; exact hv,
        by rw [show i + (j + 1) = i + 1 + j by omega]; exact hpow⟩

def Table (n : Bignum h) (A g : ℕ) (apowers : List (Bignum h)) : Prop :=
  ∀ j, j < 2 ^ (g - 1) → ∃ v, apowers[j]? = some v ∧ IsPow n A (2 * j + 1) v

/-- The group of bits that is not in `tmp` yet: `p` is odd but for its last `l` bits. -/
structure Group (s : Window h) : Prop where
  count : s.k + s.l = s.bitcount
  lt : s.p < 2 ^ s.bitcount
  odd : 0 < s.bitcount → ∃ q, s.p = (2 * q + 1) * 2 ^ s.l

/-- `E` is the number of the bits so far. -/
structure WindowInv (n : Bignum h) (A g E : ℕ) (s : Window h) : Prop extends Group s where
  bound : s.bitcount < g
  tmp : ∃ x, IsPow n A x s.tmp ∧ E = x * 2 ^ s.bitcount + s.p

variable {g : ℕ} {apowers : List (Bignum h)} {s : Window h}

theorem flush_spec {x : ℕ} (ht : Table n A g apowers) (hs : Group s)
    (hpos : 0 < s.bitcount) (hle : s.bitcount ≤ g) (htmp : IsPow n A x s.tmp) :
    ∃ r, flush ops intel apowers n n0 s = some r ∧ IsPow n A (x * 2 ^ s.bitcount + s.p) r := by
  obtain ⟨q, hq⟩ := hs.odd hpos
  have hidx : s.p >>> (s.l + 1) = q := by
    rw [shiftRight_eq_div_pow, hq, pow_succ, ← Nat.div_div_eq_div_mul,
      Nat.mul_div_cancel _ (Nat.two_pow_pos _)]
    omega
  have hqlt : q < 2 ^ (g - 1) := by
    have hlt := hs.lt.trans_le (Nat.pow_le_pow_right (by decide) hle)
    have hle' : 2 * q + 1 ≤ s.p := hq ▸ Nat.le_mul_of_pos_right _ (Nat.two_pow_pos _)
    rw [show g = g - 1 + 1 by omega, pow_succ] at hlt
    omega
  obtain ⟨v, hv, hpow⟩ := ht q hqlt
  obtain ⟨r1, heq1, hr1⟩ := squares_spec ops hh hn intel s.k htmp
  obtain ⟨r2, heq2, hr2⟩ := hr1.mul ops hh hn intel hpow
  obtain ⟨r, heq, hr⟩ := squares_spec ops hh hn intel s.l hr2
  refine ⟨r, ?_, ?_⟩
  · unfold flush
    rw [heq1, hidx, hv]
    dsimp only [bind_eq_bind, bind_some]
    rwa [heq2]
  · rwa [hq, ← hs.count, show x * 2 ^ (s.k + s.l) + (2 * q + 1) * 2 ^ s.l =
      (x * 2 ^ s.k + (2 * q + 1)) * 2 ^ s.l by ring]

omit hh hn in
theorem Group.push (hs : Group s) {bit : Bool} (hfirst : ¬ (s.bitcount = 0 ∧ bit = false)) : ∃ s' :
      Window h, (if bit then
          { ({ s with bitcount := s.bitcount + 1, p := s.p * 2 + bit.toNat } : Window h)
            with k := s.k + s.l + 1, l := 0 }
        else { ({ s with bitcount := s.bitcount + 1, p := s.p * 2 + bit.toNat } : Window h)
          with l := s.l + 1 }) = s' ∧
      Group s' ∧ s'.tmp = s.tmp ∧ s'.bitcount = s.bitcount + 1 ∧ s'.p = s.p * 2 + bit.toNat := by
  have hcount := hs.count
  have hlt := hs.lt
  refine ⟨_, rfl, ?_⟩
  cases bit with
  | true =>
    refine ⟨⟨by simp; omega, by simp; omega, fun _ => ⟨s.p, ?_⟩⟩, rfl, rfl, rfl⟩
    simp
    omega
  | false =>
    obtain ⟨q, hq⟩ := hs.odd (by simp at hfirst; omega)
    refine ⟨⟨by simp; omega, by simp; omega, fun _ => ⟨q, ?_⟩⟩, rfl, rfl, rfl⟩
    simp [hq]
    ring

theorem windowStep_spec {E : ℕ} (ht : Table n A g apowers) (hs : WindowInv n A g E s) (bit : Bool) :
    ∃ s', windowStep ops intel apowers g n n0 s bit = some s' ∧ WindowInv n A g (2 * E + bit.toNat) s' := by
  obtain ⟨x, htmp, hE⟩ := hs.tmp
  have hbound := hs.bound
  unfold windowStep
  by_cases hfirst : s.bitcount = 0 ∧ bit = false
  · rw [if_pos hfirst]
    obtain ⟨r, heq, hr⟩ := htmp.mul ops hh hn intel htmp
    have hp := hs.lt
    rw [heq]
    refine ⟨_, rfl, ⟨hs.count, hs.lt, hs.odd⟩, hbound, x + x, hr, ?_⟩
    rw [hfirst.1, pow_zero] at hE hp
    rw [hfirst.2, hE, Bool.toNat_false, hfirst.1, pow_zero]
    dsimp only
    omega
  · rw [if_neg hfirst]
    obtain ⟨s', heq, hg, htmp', hbit, hp⟩ := hs.toGroup.push hfirst
    have hE' : 2 * E + bit.toNat = x * 2 ^ s'.bitcount + s'.p := by
      rw [hE, hbit, hp]
      ring
    rw [← htmp'] at htmp
    dsimp only at heq ⊢
    rw [heq]
    split
    · rename_i hfull
      obtain ⟨r, heq', hr⟩ := flush_spec ops hh hn intel ht hg (by omega) hfull.le htmp
      rw [heq']
      refine ⟨_, rfl, ⟨rfl, by simp, fun h0 => absurd h0 (by simp)⟩, ?_, _, hr, ?_⟩
      · dsimp only
        omega
      · rw [hE', pow_zero, Nat.mul_one, Nat.add_zero]
    · exact ⟨s', rfl, hg, by omega, x, htmp, hE'⟩

theorem window_run (ht : Table n A g apowers) (bits : List Bool) (hs : WindowInv n A g 0 s) :
    ∃ s', bits.foldlM (windowStep ops intel apowers g n n0) s = some s' ∧
    WindowInv n A g (bitsVal bits) s' := by
  induction bits using reverseRecOn with
  | nil => exact ⟨s, rfl, hs⟩
  | append_singleton bits b ih =>
    obtain ⟨s1, heq1, hs1⟩ := ih
    obtain ⟨s2, heq2, hs2⟩ := windowStep_spec ops hh hn intel ht hs1 b
    refine ⟨s2, ?_, by rw [bitsVal_concat]; exact hs2⟩
    rw [foldlM_append, heq1]
    change (windowStep ops intel apowers g n n0 s1 b >>= fun s => some s) = some s2
    rw [heq2]
    rfl

theorem bigModexpNcpInt_spec {ma tmp : Bignum h} (hma : IsPow n A 1 ma) (htmp : IsPow n A 0 tmp)
    (he : e.value ≠ []) :
    ∃ r, bigModexpNcpInt ops intel ma e n tmp n0 = some r ∧ IsPow n A e.abs r := by
  obtain ⟨ma2, heq2, hma2⟩ := hma.mul ops hh hn intel hma
  unfold bigModexpNcpInt
  dsimp only
  rw [heq2]
  generalize hg : (if bigNumbits e < 50 then 1 else maxExpBitGroupSize) = g
  have hgpos : 0 < g := by rw [← hg]; split <;> decide
  have hsize : (if bigNumbits e < 50 then 1 else 1 <<< (g - 1)) - 1 + 1 = 2 ^ (g - 1) := by
    rw [← hg]
    split <;> decide
  dsimp only [bind_eq_bind, bind_some]
  generalize (if bigNumbits e < 50 then 1 else 1 <<< (g - 1)) - 1 = m at hsize ⊢
  obtain ⟨apowers, heqt, htab⟩ := oddPowers_spec ops hh hn intel hma2.copy m 0 hma.copy
  have ht : Table n A g apowers := fun j hj => by
    obtain ⟨v, hv, hpow⟩ := htab j (by omega)
    exact ⟨v, hv, by rwa [Nat.zero_add] at hpow⟩
  have hinit : WindowInv n A g 0 (⟨tmp, 0, 0, 0, 0⟩ : Window h) :=
    ⟨⟨rfl, by simp, fun h0 => absurd h0 (by simp)⟩, hgpos, 0, htmp, by simp⟩
  obtain ⟨s, heqs, hs⟩ := window_run ops hh hn intel ht (expBits e) hinit
  rw [bitsVal_expBits hh he] at hs
  simp only [heqt, heqs, bind_some]
  obtain ⟨x, hx, hE⟩ := hs.tmp
  have hlt := hs.lt
  have hbit : s.bitcount = 0 ↔ s.p = 0 := by
    constructor
    · intro h0
      rw [h0, pow_zero] at hlt
      omega
    · intro hp
      by_contra h0
      obtain ⟨q, hq⟩ := hs.odd (Nat.pos_of_ne_zero h0)
      have := Nat.mul_pos (show 0 < 2 * q + 1 by omega) (Nat.two_pow_pos s.l)
      omega
  by_cases hp : s.p = 0
  · have hcount := hs.count
    rw [hbit.2 hp, Nat.add_eq_zero_iff] at hcount
    simp only [hcount.1, hcount.2, squares, bind_some, ne_eq, hp, not_true_eq_false, if_false]
    refine ⟨s.tmp, rfl, ?_⟩
    rwa [hE, hbit.2 hp, hp, pow_zero, Nat.mul_one, Nat.add_zero]
  · obtain ⟨r, heq, hr⟩ := flush_spec ops hh hn intel ht hs.toGroup
      (Nat.pos_of_ne_zero (mt hbit.1 hp)) hs.bound.le hx
    refine ⟨r, ?_, hE ▸ hr⟩
    simp only [ne_eq, hp, not_false_eq_true, if_true]
    exact heq

end Pow

/-! ## The power -/

section Modexp

variable (ops : VecOps h) (hh : 0 < h) (intel : Bool)

/-- The last steps of `big_modexp_ext`, with a base that is at most the modulus. -/
def modexpTail (a e n rr : Bignum h) : Option (Bignum h) := do
  let n0 := bigN0 (n.value.getD 0 0)
  let ma ← bigMontConv ops intel a n n0 (some rr)
  let tmp ← bigMontConv ops intel ⟨1, [1]⟩ n n0 (some rr)
  let tmp ← bigModexpNcpInt ops intel ma e n tmp n0
  let tmp ← bigMontMul ops intel tmp ⟨1, [1]⟩ n n0
  some (bigCopy tmp)

include hh

theorem isOne : (⟨1, [1]⟩ : Bignum h).abs = 1 := by
  change num [(1 : Chunk h)] = 1
  rw [num_singleton, toNat_one hh]

variable {a : Bignum h}

theorem modexp_reduced {n rr : Bignum h} (hn : n.value ≠ []) (hodd : n.abs % 2 = 1)
    (ha : a.value ≠ []) (hs : a.sign = 1) (hle : a.abs ≤ n.abs) (he : e.value ≠ [])
    (hrr : rr.abs = n.radix * n.radix % n.abs) (hne : rr.value ≠ []) (hsr : rr.sign = 1) :
    ∃ r, modexpTail ops intel a e n rr = some r ∧ Trimmed r.value ∧ r.sign = 1 ∧
      r.abs = if n.abs = 1 ∨ ¬ n.abs ∣ a.abs ^ e.abs ∨ 0 < e.abs ∧
      a.abs = 0 then a.abs ^ e.abs % n.abs else n.abs := by
  have hmod := modulus_bigN0 hh hn hodd
  have hco := coprime_radix hodd
  have hN0 : 0 < n.abs := Nat.pos_of_ne_zero fun h0 => by simp [h0] at hodd
  have hone := isOne hh
  obtain ⟨ma, heq1, hma, hne1, hs1⟩ := bigMontConv_spec ops hh hmod intel ha hle hs hrr hne hsr
  obtain ⟨one, heq2, hone', hne2, hs2⟩ := bigMontConv_spec ops hh hmod intel (a := ⟨1, [1]⟩) (by simp)
    (by rw [hone]; exact hN0) rfl hrr hne hsr
  rw [hone] at hone'
  obtain ⟨p, heq3, hp⟩ := bigModexpNcpInt_spec ops hh hmod intel ⟨.base hco hma, hne1, hs1⟩
    ⟨.one hco hone', hne2, hs2⟩ he
  obtain ⟨r, heq4, hr, ht, hsign⟩ := bigMontMul_spec ops hh hmod intel (b := ⟨1, [1]⟩) hp.ne_nil
    (by simp) (by rw [hone]; exact Nat.mul_le_mul hp.pow.le hN0)
  rw [hone] at hr hsign
  simp only [modexpTail, heq1, heq2, heq3, heq4, bind_eq_bind, bind_some]
  refine ⟨_, rfl, trimmed_trim ht.ne_nil, ?_, ?_⟩
  · change r.sign = 1
    rw [hsign, hp.sign]
    simp
  · change num (trim r.value) = _
    rw [num_trim]
    exact hp.pow.out hco hr

omit hh in
theorem bigCopy_trimmed {n : Bignum h} (hn : Trimmed n.value) : bigCopy n = n := by
  unfold bigCopy
  rw [(trimmed_trim hn.ne_nil).eq hn (num_trim _)]

omit hh in
/-- The reduction makes the base zero if the modulus divides it, unless it is the modulus. -/
theorem reduced_base {N a A e : ℕ} (hN0 : N ≠ 0) (hN : N ≠ 1) (hdvd : N ∣ a ^ e)
    (hA : A = if N < a then a % N else a) : 0 < e ∧ A = 0 ↔ N ∣ a ∧ a ≠ N := by
  have hepos : 0 < e := by
    rcases Nat.eq_zero_or_pos e with rfl | hpos
    · exact absurd (dvd_one.1 (by simpa using hdvd)) hN
    · exact hpos
  rw [hA]
  split
  · rename_i hlt
    rw [← dvd_iff_mod_eq_zero]
    exact ⟨fun ⟨_, h⟩ => ⟨h, hlt.ne'⟩, fun ⟨h, _⟩ => ⟨hepos, h⟩⟩
  · constructor
    · rintro ⟨-, rfl⟩
      exact ⟨dvd_zero N, hN0.symm⟩
    · rintro ⟨hd, hne⟩
      exact ⟨hepos, eq_zero_of_dvd_of_lt hd (by omega)⟩

theorem base_spec {n : Bignum h} (hn : Trimmed n.value) (hN0 : n.abs ≠ 0) (ha : a.value ≠ [])
    (hs : a.sign = 1) :
    ∃ a', (if cmpAbs a.value n.value = .gt then (bigDivPos a n).map Prod.snd else some a) = some a' ∧
      a'.abs = (if n.abs < a.abs then a.abs % n.abs else a.abs) ∧ a'.value ≠ [] ∧ a'.sign = 1 := by
  by_cases hgt : cmpAbs a.value n.value = .gt
  · obtain ⟨q, r, heq, -, hr, -, hrs, -, hrt⟩ := bigDivPos_spec hh ha hn.ne_nil hN0
    refine ⟨r, by rw [if_pos hgt, heq]; rfl, ?_, hrt.ne_nil, hrs.trans hs⟩
    have hlt : n.abs < a.abs := (cmpAbs_eq_gt _ _).1 hgt
    rw [if_pos hlt, hr]
  · have hge : ¬ n.abs < a.abs := fun hlt => hgt ((cmpAbs_eq_gt _ _).2 hlt)
    exact ⟨a, by rw [if_neg hgt], by rw [if_neg hge], ha, hs⟩

omit hh in
theorem bigModexp_eq {a e n rr a' : Bignum h} {nRr : Option (Bignum h)} (hn : Trimmed n.value)
    (hrr : nRr = none ∨ nRr = bigMontRr n) (hrreq : bigMontRr n = some rr)
    (ha' : (if cmpAbs a.value n.value = .gt then (bigDivPos a n).map Prod.snd else some a) = some a') :
    bigModexp ops intel a e n nRr = modexpTail ops intel a' e n rr := by
  have hcopy := bigCopy_trimmed hn
  unfold bigModexp
  by_cases hgt : cmpAbs a.value n.value = .gt
  · rw [if_pos hgt] at ha'
    rcases hrr with rfl | rfl <;> simp only [hrreq, hcopy, ite_self, hgt, ha', if_true] <;> rfl
  · rw [if_neg hgt] at ha'
    cases ha'
    rcases hrr with rfl | rfl <;> simp only [hrreq, hcopy, ite_self, hgt, if_false] <;> rfl

theorem bigModexp_spec {n : Bignum h} {nRr : Option (Bignum h)} (hn : Trimmed n.value)
    (hodd : n.abs % 2 = 1)
    (ha : a.value ≠ []) (hs : a.sign = 1) (he : e.value ≠ []) (hrr : nRr = none ∨ nRr = bigMontRr n) :
    ∃ r, bigModexp ops intel a e n nRr = some r ∧ Trimmed r.value ∧ r.sign = 1 ∧
      r.abs = if n.abs = 1 ∨ ¬ n.abs ∣ a.abs ^ e.abs ∨ n.abs ∣ a.abs ∧
      a.abs ≠ n.abs then a.abs ^ e.abs % n.abs
        else n.abs := by
  have hN0 : n.abs ≠ 0 := fun h0 => by simp [h0] at hodd
  obtain ⟨rr, hrreq, hrrabs, hrrne, hrrs⟩ := bigMontRr_spec hh hn.ne_nil hN0
  obtain ⟨a', ha', habs, hane, hasign⟩ := base_spec hh hn hN0 ha hs
  have hle : a'.abs ≤ n.abs := by
    rw [habs]
    split
    · exact (mod_lt _ (Nat.pos_of_ne_zero hN0)).le
    · omega
  have hmod : a'.abs ^ e.abs ≡ a.abs ^ e.abs [MOD n.abs] := by
    refine Nat.ModEq.pow _ ?_
    rw [habs]
    split
    · exact mod_modEq _ _
    · rfl
  obtain ⟨r, heq, hrt, hrs, hr⟩ :=
    modexp_reduced ops hh intel hn.ne_nil hodd hane hasign hle he hrrabs hrrne hrrs
  refine ⟨r, (bigModexp_eq ops intel hn hrr hrreq ha').trans heq, hrt, hrs, ?_⟩
  rw [hr, hmod]
  refine if_congr ?_ rfl rfl
  rw [hmod.dvd_iff dvd_rfl]
  by_cases h1 : n.abs = 1
  · exact iff_of_true (.inl h1) (.inl h1)
  by_cases hdvd : n.abs ∣ a.abs ^ e.abs
  · rw [reduced_base hN0 h1 hdvd habs]
  · exact iff_of_true (.inr (.inl hdvd)) (.inr (.inl hdvd))

/-- `big_modexp` computes the power modulo an odd modulus, except for a power that the modulus
divides while the base is not zero after its reduction: Montgomery multiplication then leaves the
modulus, and so does the base that is equal to it. -/
theorem bigModexp_exact_iff {a e n : Bignum h} {nRr : Option (Bignum h)} (hn : Trimmed n.value)
    (hodd : n.abs % 2 = 1) (ha : a.value ≠ []) (hs : a.sign = 1) (he : e.value ≠ [])
    (hrr : nRr = none ∨ nRr = bigMontRr n) :
    (∃ r, bigModexp ops intel a e n nRr = some r ∧ r.sign = 1 ∧ r.abs = a.abs ^ e.abs % n.abs ∧
      r.abs < n.abs) ↔ n.abs = 1 ∨ ¬ n.abs ∣ a.abs ^ e.abs ∨ n.abs ∣ a.abs ∧ a.abs ≠ n.abs := by
  have hN0 : 0 < n.abs := Nat.pos_of_ne_zero fun h0 => by simp [h0] at hodd
  obtain ⟨r, heq, -, hsign, hr⟩ := bigModexp_spec ops hh intel hn hodd ha hs he hrr
  constructor
  · rintro ⟨r', heq', -, -, hlt⟩
    obtain rfl := Option.some.inj (heq.symm.trans heq')
    by_contra hcase
    rw [if_neg hcase] at hr
    omega
  · intro hcase
    rw [if_pos hcase] at hr
    exact ⟨r, heq, hsign, hr, hr ▸ mod_lt _ hN0⟩

omit hh in
theorem bigModexp_exact_seven :
    ∃ r, bigModexp (genericOps 16) false ⟨1, [3]⟩ ⟨1, [5]⟩ ⟨1, [7]⟩ none = some r ∧ r.sign = 1 ∧
      r.abs = (⟨1, [3]⟩ : Bignum 16).abs ^ (⟨1, [5]⟩ : Bignum 16).abs % (⟨1, [7]⟩ : Bignum 16).abs ∧
      r.abs < (⟨1, [7]⟩ : Bignum 16).abs :=
  (bigModexp_exact_iff (genericOps 16) (by decide) false (trimmed_singleton _) (by decide)
    (by decide) rfl (by decide) (.inl rfl)).2 (.inr (.inl (by decide)))

omit hh in
/-- `3 ^ 2` modulo 9 comes out as 9. -/
theorem modexp_leaves_modulus :
    bigModexp (genericOps 16) false ⟨1, [3]⟩ ⟨1, [2]⟩ ⟨1, [9]⟩ none = some ⟨1, [9]⟩ := by
  decide +kernel

end Modexp

end Osol.Big
