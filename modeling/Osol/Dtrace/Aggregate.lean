import Osol.Dtrace.Dif

/-!
# Aggregating functions

`stddev`, with the arithmetic of 128 bits it is made of, and the histograms of `quantize` and
`lquantize`. Signed arithmetic wraps around, as on the machines of the kernel.
-/

namespace Osol.Dtrace

open Function List Bool

/-! ## 128 bits -/

/-- Two words, the low one first. -/
abbrev Word128 := Word × Word

def Word128.val (a : Word128) : ℕ := a.1.toNat + 2 ^ 64 * a.2.toNat

def dtraceAdd128 (addend1 addend2 : Word128) : Word128 :=
  let result := addend1.1 + addend2.1
  (result, addend1.2 + addend2.2 + if result < addend1.1 ∨ result < addend2.1 then 1 else 0)

/-- `dtrace_shift_128`: to the left if `b` is positive. -/
def dtraceShift128 (a : Word128) (b : ℤ) : Word128 :=
  if b = 0 then a
  else if b < 0 then
    let b := b.natAbs
    if 64 ≤ b then (a.2 >>> (b - 64), 0)
    else
      let mask : Word := 1 <<< (64 - b) - 1
      (a.1 >>> b ||| (a.2 &&& mask) <<< (64 - b), a.2 >>> b)
  else
    let b := b.natAbs
    if 64 ≤ b then (0, a.1 <<< (b - 64))
    else
      let mask := a.1 >>> (64 - b)
      (a.1 <<< b, a.2 <<< b ||| mask)

def dtMaskLo : Word := 0x00000000FFFFFFFF

def dtraceMultiply128 (factor1 factor2 : Word) : Word128 :=
  let hi1 := factor1 >>> 32
  let hi2 := factor2 >>> 32
  let lo1 := factor1 &&& dtMaskLo
  let lo2 := factor2 &&& dtMaskLo
  let product := (lo1 * lo2, hi1 * hi2)
  let product := dtraceAdd128 product (dtraceShift128 (hi1 * lo2, 0) 32)
  dtraceAdd128 product (dtraceShift128 (hi2 * lo1, 0) 32)

theorem dtraceAdd128_val (a b : Word128) : (dtraceAdd128 a b).val = (a.val + b.val) % 2 ^ 128 := by
  simp only [dtraceAdd128, Word128.val, BitVec.lt_def, BitVec.toNat_add]
  -- the low word wraps around exactly when the sum is below an addend
  split
  · rw [show (1 : Word).toNat = 1 from rfl]
    omega
  · rw [show (0 : Word).toNat = 0 from rfl]
    omega

variable (x : Word)

theorem shift_middle_val : (dtraceShift128 (x, 0) 32).val = x.toNat * 2 ^ 32 := by
  simp [dtraceShift128, Word128.val, Nat.shiftRight_eq_div_pow, Nat.shiftLeft_eq]
  omega

theorem word_halves : (x >>> 32).toNat < 2 ^ 32 ∧ (x &&& dtMaskLo).toNat < 2 ^ 32 ∧
      x.toNat = (x >>> 32).toNat * 2 ^ 32 + (x &&& dtMaskLo).toNat := by
  have hlo : (x &&& dtMaskLo).toNat = x.toNat % 2 ^ 32 :=
    (BitVec.toNat_and ..).trans (Nat.and_two_pow_sub_one_eq_mod x.toNat 32)
  rw [hlo, BitVec.toNat_ushiftRight, Nat.shiftRight_eq_div_pow]
  omega

theorem half_mul_toNat {x y : Word} (hx : x.toNat < 2 ^ 32) (hy : y.toNat < 2 ^ 32) :
    (x * y).toNat = x.toNat * y.toNat := by
  rw [BitVec.toNat_mul]
  exact Nat.mod_eq_of_lt ((Nat.mul_lt_mul'' hx hy).trans_eq (by norm_num))

theorem dtraceMultiply128_val (x y : Word) : (dtraceMultiply128 x y).val = x.toNat * y.toNat := by
  obtain ⟨h1, h2, h3⟩ := word_halves x
  obtain ⟨h4, h5, h6⟩ := word_halves y
  have hlt : x.toNat * y.toNat < 2 ^ 128 := (Nat.mul_lt_mul'' x.isLt y.isLt).trans_eq (by norm_num)
  unfold dtraceMultiply128
  dsimp only
  rw [dtraceAdd128_val, dtraceAdd128_val, shift_middle_val, shift_middle_val, Nat.mod_add_mod,
    half_mul_toNat h1 h5, half_mul_toNat h4 h2]
  unfold Word128.val
  dsimp only
  rw [half_mul_toNat h2 h5, half_mul_toNat h1 h4, ← Nat.mod_eq_of_lt hlt, h3, h6]
  congr 1
  ring

/-! ## `stddev` -/

structure StddevData where
  count : Word
  sum : Word
  squares : Word128
  deriving DecidableEq

def dtraceAggregateStddev (data : StddevData) (nval : Word) : StddevData :=
  let snval := if nval.toInt < 0 then -nval else nval
  { count := data.count + 1
    sum := data.sum + nval
    squares := dtraceAdd128 data.squares (dtraceMultiply128 snval snval) }

/-- The magnitude of a value: `INT64_MIN` is its own negation, which is right as a word. -/
theorem magnitude_sq : ((if x.toInt < 0 then -x else x).toNat *
      (if x.toInt < 0 then -x else x).toNat : ℤ) = x.toInt ^ 2 := by
  have hi := BitVec.toInt_eq_toNat_cond x
  split
  · next hneg =>
    have : ((-x).toNat : ℤ) = -x.toInt := by
      rw [BitVec.toNat_neg]
      split at hi <;> omega
    rw [this]
    ring
  · next hpos =>
    have : (x.toNat : ℤ) = x.toInt := by split at hi <;> omega
    rw [this]
    ring

structure Holds (data : StddevData) (samples : List Word) : Prop where
  count : data.count = BitVec.ofNat 64 samples.length
  sum : data.sum = BitVec.ofInt 64 (samples.map BitVec.toInt).sum
  squares : (data.squares.val : ℤ) = (samples.map fun x => x.toInt ^ 2).sum % 2 ^ 128

theorem Holds.snoc {data : StddevData} {samples : List Word} (h : Holds data samples) (x : Word) :
    Holds (dtraceAggregateStddev data x) (samples ++ [x]) := by
  refine ⟨?_, ?_, ?_⟩
  · simp [dtraceAggregateStddev, h.count, BitVec.ofNat_add]
  · simp [dtraceAggregateStddev, h.sum, BitVec.ofInt_add]
  · have hsq := magnitude_sq x
    simp only [dtraceAggregateStddev, dtraceAdd128_val, dtraceMultiply128_val, map_append,
      map_cons, map_nil, sum_append, sum_cons, sum_nil, add_zero,
      Int.natCast_emod, Nat.cast_add, Nat.cast_mul, Nat.cast_pow, Nat.cast_ofNat]
    rw [hsq, h.squares, Int.emod_add_emod]

theorem Holds.foldl {data : StddevData} {samples : List Word} (h : Holds data samples)
    (rest : List Word) : Holds (rest.foldl dtraceAggregateStddev data) (samples ++ rest) := by
  induction rest generalizing data samples with
  | nil => simpa using h
  | cons x rest ih => simpa using ih (h.snoc x)

/-- After any samples, `data` holds their number, their sum and the sum of their squares, modulo
the sizes of the words. -/
theorem stddev_sums (samples : List Word) :
    let data := samples.foldl dtraceAggregateStddev ⟨0, 0, 0, 0⟩
    data.count.toNat = samples.length % 2 ^ 64 ∧
      data.sum = BitVec.ofInt 64 (samples.map BitVec.toInt).sum ∧
      (data.squares.val : ℤ) = (samples.map fun x => x.toInt ^ 2).sum % 2 ^ 128 := by
  have hzero : Holds ⟨0, 0, 0, 0⟩ [] := ⟨rfl, rfl, rfl⟩
  obtain ⟨h1, h2, h3⟩ := hzero.foldl samples
  exact ⟨by rw [h1, BitVec.toNat_ofNat]; rfl, h2, h3⟩

/-! ## `quantize` -/

def dtraceQuantizeNbuckets : ℕ := 127

def dtraceQuantizeZerobucket : ℕ := 63

def dtraceQuantizeBucketval (buck : ℕ) : ℤ :=
  if buck < dtraceQuantizeZerobucket then -2 ^ (dtraceQuantizeZerobucket - 1 - buck)
  else if buck = dtraceQuantizeZerobucket then 0
  else 2 ^ (buck - dtraceQuantizeZerobucket - 1)

def bump {ι : Type} [DecidableEq ι] (counters : ι → Word) (incr : Word) (i : ι) : ι → Word :=
  update counters i (counters i + incr)

/-- `dtrace_aggregate_quantize`; it is `none` at the `ASSERT(0)`. -/
def dtraceAggregateQuantize (quanta : ℕ → Word) (nval incr : Word) : Option (ℕ → Word) :=
  let val := nval.toInt
  if val < 0 then
    ((range dtraceQuantizeZerobucket).find? fun i => val ≤ dtraceQuantizeBucketval i).map (bump quanta incr)
  else
    let first := dtraceQuantizeZerobucket + 1
    match (range' first (dtraceQuantizeNbuckets - first)).find? fun i =>
      val < dtraceQuantizeBucketval i with
    | some i => some (bump quanta incr (i - 1))
    | none => some (bump quanta incr (dtraceQuantizeNbuckets - 1))

/-- The values of a bucket lie between two powers of two, those of the middle one are zero. The
first and the last reach to the ends of the words. -/
def InBucket (k : ℕ) (v : ℤ) : Prop :=
  if k < 63 then v ≤ -2 ^ (62 - k) ∧ (k = 0 ∨ -2 ^ (63 - k) < v)
  else if k = 63 then v = 0
  else 2 ^ (k - 64) ≤ v ∧ (k = 126 ∨ v < 2 ^ (k - 63))

theorem InBucket.unique {j k : ℕ} {v : ℤ} (hj : InBucket j v) (hk : InBucket k v) (hlt : j < k)
    (hk' : k < 127) : False := by
  have hmono : ∀ {a b : ℕ}, a ≤ b → (2 : ℤ) ^ a ≤ 2 ^ b := pow_le_pow_right₀ (by norm_num)
  have hpos : ∀ a : ℕ, (0 : ℤ) < 2 ^ a := fun a => by positivity
  unfold InBucket at hj hk
  split_ifs at hj hk with h1 h2 h3 h4 h5 h6
  · have h7 := hmono (show 63 - k ≤ 62 - j by omega)
    omega
  · have h7 := hpos (62 - j)
    omega
  · have h7 := hpos (62 - j)
    have h8 := hpos (k - 64)
    omega
  · omega
  · omega
  · have h7 := hpos (k - 64)
    omega
  · omega
  · omega
  · have h7 := hmono (show j - 63 ≤ k - 64 by omega)
    omega

theorem bucketval_neg {i : ℕ} (h : i < 63) : dtraceQuantizeBucketval i = -2 ^ (62 - i) := if_pos h

theorem bucketval_pos {i : ℕ} (h : 63 < i) : dtraceQuantizeBucketval i = 2 ^ (i - 64) := by
  unfold dtraceQuantizeBucketval dtraceQuantizeZerobucket
  rw [if_neg (by omega), if_neg (by omega), Nat.sub_sub]

theorem quantize_bucket (quanta : ℕ → Word) (nval incr : Word) : ∃ k < 127, InBucket k nval.toInt ∧
      dtraceAggregateQuantize quanta nval incr = some (bump quanta incr k) := by
  unfold dtraceAggregateQuantize
  by_cases hneg : nval.toInt < 0
  · rw [if_pos hneg]
    cases hf : (range 63).find? fun i => nval.toInt ≤ dtraceQuantizeBucketval i with
    | none =>
      have h := List.find?_range_eq_none.1 hf 62 (by omega)
      simp only [bucketval_neg (show 62 < 63 by omega), not_eq_true', decide_eq_false_iff_not] at h
      omega
    | some i =>
      obtain ⟨hle, hmem, hbefore⟩ := List.find?_range_eq_some.1 hf
      have hi := mem_range.1 hmem
      refine ⟨i, by omega, ?_, by rw [show dtraceQuantizeZerobucket = 63 from rfl, hf]; rfl⟩
      rw [decide_eq_true_iff, bucketval_neg hi] at hle
      unfold InBucket
      rw [if_pos hi]
      refine ⟨hle, Nat.eq_zero_or_pos i |>.imp_right fun hpos => ?_⟩
      have h := hbefore (i - 1) (by omega)
      rwa [bucketval_neg (by omega), show 62 - (i - 1) = 63 - i by omega, not_eq_true',
        decide_eq_false_iff_not, not_le] at h
  · rw [if_neg hneg]
    dsimp only
    cases hf : (range' 64 63).find? fun i => nval.toInt < dtraceQuantizeBucketval i with
    | none =>
      refine ⟨126, by omega, ?_, by
        rw [show dtraceQuantizeZerobucket + 1 = 64 from rfl, show dtraceQuantizeNbuckets - 64 =
          63 from rfl, hf]; rfl⟩
      have h := List.find?_range'_eq_none.1 hf 126 (by omega) (by omega)
      rw [bucketval_pos (by omega), not_eq_true', decide_eq_false_iff_not, not_lt] at h
      exact ⟨h, .inl rfl⟩
    | some i =>
      obtain ⟨hlt, hmem, hbefore⟩ := List.find?_range'_eq_some.1 hf
      have hi := mem_range'_1.1 hmem
      refine ⟨i - 1, by omega, ?_, by
        rw [show dtraceQuantizeZerobucket + 1 = 64 from rfl, show dtraceQuantizeNbuckets - 64 =
          63 from rfl, hf]⟩
      rw [decide_eq_true_iff, bucketval_pos (by omega)] at hlt
      unfold InBucket
      rw [if_neg (by omega)]
      split_ifs with h64
      · rw [show i - 64 = 0 by omega] at hlt
        omega
      · have h := hbefore (i - 1) (by omega) (by omega)
        rw [bucketval_pos (by omega), not_eq_true', decide_eq_false_iff_not, not_lt] at h
        exact ⟨h, .inr (by rwa [show i - 1 - 63 = i - 64 by omega])⟩

/-! ## `lquantize` -/

def dtraceLquantizeStep : ℕ := ((x &&& 0xffff000000000000) >>> 48).toNat

def dtraceLquantizeLevels : ℕ := ((x &&& 0xffff00000000) >>> 32).toNat

def dtraceLquantizeBase : BitVec 32 := (x &&& 0xffffffff).setWidth 32

/-- `dtrace_ecb_aggregation_create` accepts the argument. -/
def lquantizeAccepts (arg : Word) : Prop :=
  dtraceLquantizeStep arg ≠ 0 ∧ dtraceLquantizeLevels arg ≠ 0

/-- The counter that `dtrace_aggregate_lquantize` chooses. -/
def lquantizeIndex (arg nval : Word) : ℤ :=
  let base := dtraceLquantizeBase arg
  let step := dtraceLquantizeStep arg
  let levels := dtraceLquantizeLevels arg
  let val := nval.setWidth 32
  if val.toInt < base.toInt then 0
  else
    let level := (val - base).toInt.tdiv step
    if level < levels then level + 1 else levels + 1

/-- `dtrace_aggregate_lquantize`. The argument stands before the counters. -/
def dtraceAggregateLquantize (lquanta : ℤ → Word) (nval incr : Word) : ℤ → Word :=
  bump lquanta incr (lquantizeIndex (lquanta (-1)) nval)

/-- The counter of a value: underflow, one of the levels, or overflow. -/
def LquantizeCounter (base step levels v i : ℤ) : Prop :=
  (v < base ∧ i = 0) ∨
    (∃ k, 0 ≤ k ∧ k < levels ∧ base + k * step ≤ v ∧ v < base + (k + 1) * step ∧ i = k + 1) ∨
    (base + levels * step ≤ v ∧ i = levels + 1)

/-- When the 32 bits that `dtrace_aggregate_lquantize` looks at lead to the counter of the
value: the value is one of 32 bits, less than `2 ^ 31` above the base, or it is too small
or too large for 32 bits and its low 32 bits happen to lead to the same end. -/
def LquantizeFits (base step levels v val : ℤ) : Prop :=
  (v = val ∧ v - base < 2 ^ 31) ∨
    (v < -2 ^ 31 ∧ (val < base ∨
      2 ^ 31 ≤ val - base ∧ step ≤ 2 ^ 32 - (val - base) ∧ 2 ^ 32 - (val - base) < 2 * step)) ∨
    (2 ^ 31 ≤ v ∧ base + levels * step ≤ val ∧ val - base < 2 ^ 31)

theorem lquantizeCounter_iff {base step levels v i : ℤ} (hs : 0 < step) (hl : 0 < levels) :
    LquantizeCounter base step levels v i ↔
    i = if v < base then 0 else min ((v - base) / step) levels + 1 := by
  have hk : ∀ k, (v - base) / step = k ↔ base + k * step ≤ v ∧ v < base + (k + 1) * step := by
    intro k
    rw [Int.ediv_eq_iff_of_pos hs, add_mul]
    omega
  have hle : levels ≤ (v - base) / step ↔ base + levels * step ≤ v := by
    rw [Int.le_ediv_iff_mul_le hs]
    omega
  have hnn : 0 ≤ (v - base) / step ↔ base ≤ v := by
    rw [Int.ediv_nonneg_iff_of_pos hs]
    omega
  constructor
  · rintro (⟨h1, h2⟩ | ⟨k, h1, h2, h3, h4, h5⟩ | ⟨h1, h2⟩)
    · rw [if_pos h1, h2]
    · have := (hk k).2 ⟨h3, h4⟩
      rw [if_neg (by omega)]
      omega
    · rw [← hle] at h1
      rw [if_neg (by omega)]
      omega
  · intro h
    split_ifs at h with hv
    · exact .inl ⟨hv, h⟩
    · by_cases hlev : levels ≤ (v - base) / step
      · exact .inr (.inr ⟨hle.1 hlev, by omega⟩)
      · obtain ⟨h1, h2⟩ := (hk _).1 rfl
        exact .inr (.inl ⟨(v - base) / step, by omega, by omega, h1, h2, by omega⟩)

/-- The difference is taken in 32 bits; one that is too large is negative. -/
theorem lquantizeIndex_eq {arg : Word} (ha : lquantizeAccepts arg) (nval : Word) {d : ℤ}
    (hd : (nval.setWidth 32).toInt - (dtraceLquantizeBase arg).toInt = d) :
    lquantizeIndex arg nval = if d < 0 then 0
      else if d < 2 ^ 31 then min (d / dtraceLquantizeStep arg) (dtraceLquantizeLevels arg) + 1
      else 1 - (2 ^ 32 - d) / dtraceLquantizeStep arg := by
  have h1 := BitVec.le_toInt (dtraceLquantizeBase arg)
  have h2 := BitVec.toInt_lt (x := nval.setWidth 32)
  have hdiff : 0 ≤ d → (nval.setWidth 32 - dtraceLquantizeBase arg).toInt = if d < 2 ^ 31 then d
    else -(2 ^ 32 - d) := by
    intro hnn
    rw [BitVec.toInt_sub, hd, Int.bmod_def]
    split_ifs <;> omega
  have hlev := ha.2
  unfold lquantizeIndex
  dsimp only
  by_cases hneg : d < 0
  · rw [if_pos (by omega), if_pos hneg]
  rw [if_neg (by omega), if_neg hneg, hdiff (by omega)]
  by_cases hfit : d < 2 ^ 31
  · rw [if_pos hfit, if_pos hfit, Int.tdiv_eq_ediv_of_nonneg (by omega)]
    split <;> omega
  · have hnn := Int.ediv_nonneg (show 0 ≤ 2 ^ 32 - d by omega)
      (Int.natCast_nonneg (dtraceLquantizeStep arg))
    rw [if_neg hfit, if_neg hfit, Int.neg_tdiv, Int.tdiv_eq_ediv_of_nonneg (by omega), if_pos (by omega)]
    omega

theorem field_lt (x m : Word) (n : ℕ) (h : m >>> n = 0xffff) : ((x &&& m) >>> n).toNat < 2 ^ 16 := by
  rw [BitVec.ushiftRight_and_distrib, h, BitVec.toNat_and]
  exact Nat.and_lt_two_pow _ (by decide)

theorem low_toInt : ∃ k, x.toInt = (x.setWidth 32).toInt + 2 ^ 32 * k := by
  refine ⟨(x.toInt - (x.setWidth 32).toInt) / 2 ^ 32, ?_⟩
  have h1 := BitVec.toInt_eq_toNat_cond x
  have h2 := BitVec.toInt_eq_toNat_cond (x.setWidth 32)
  rw [BitVec.toNat_setWidth] at h2
  split at h1 <;> split at h2 <;> omega

theorem lquantize_arith {base step levels v val k : ℤ} (hs : 0 < step ∧ step < 2 ^ 16)
    (hl : 0 < levels ∧ levels < 2 ^ 16) (hb : -2 ^ 31 ≤ base ∧ base < 2 ^ 31)
    (hval : -2 ^ 31 ≤ val ∧ val < 2 ^ 31) (hv : v = val + 2 ^ 32 * k) :
    ((if val - base < 0 then 0 else if val - base < 2 ^ 31 then min ((val - base) / step) levels + 1
      else 1 - (2 ^ 32 - (val - base)) / step) =
        if v < base then 0 else min ((v - base) / step) levels + 1) ↔
      LquantizeFits base step levels v val := by
  have hnn := fun x (hx : 0 ≤ x) => Int.ediv_nonneg hx hs.1.le
  have hle := fun x => Int.le_ediv_iff_mul_le (a := levels) (b := x) hs.1
  have hone := fun x => Int.ediv_eq_iff_of_pos (x := x) (y := 1) hs.1
  have hmul : levels * step < 2 ^ 32 :=
    (Int.mul_lt_mul hl.2 hs.2.le hs.1 (by norm_num)).trans_eq (by norm_num)
  unfold LquantizeFits
  rcases lt_trichotomy k 0 with hk | rfl | hk
  · -- too small for 32 bits: the counter is that of underflow
    rw [if_pos (show v < base by omega)]
    by_cases hneg : val - base < 0
    · rw [if_pos hneg]
      omega
    rw [if_neg hneg]
    by_cases hfit : val - base < 2 ^ 31
    · have := hnn (val - base) (by omega)
      rw [if_pos hfit]
      omega
    · have := hone (2 ^ 32 - (val - base))
      rw [if_neg hfit]
      omega
  · obtain rfl : v = val := by omega
    by_cases hneg : v - base < 0
    · rw [if_pos hneg, if_pos (by omega)]
      omega
    rw [if_neg hneg, if_neg (show ¬v < base by omega)]
    by_cases hfit : v - base < 2 ^ 31
    · rw [if_pos hfit]
      omega
    · have h1 := hnn (2 ^ 32 - (v - base)) (by omega)
      have h2 := (Int.le_ediv_iff_mul_le (a := 1) (b := v - base) hs.1).2 (by omega)
      rw [if_neg hfit]
      omega
  · -- too large for 32 bits: above the base, it is also above all levels
    rw [if_neg (show ¬v < base by omega)]
    have hv' := hnn (v - base) (by omega)
    by_cases hneg : val - base < 0
    · have := Int.mul_pos hl.1 hs.1
      rw [if_pos hneg]
      omega
    have hover := (hle (v - base)).2 (by omega)
    rw [if_neg hneg]
    by_cases hfit : val - base < 2 ^ 31
    · have := hle (val - base)
      rw [if_pos hfit]
      omega
    · have h1 := hnn (2 ^ 32 - (val - base)) (by omega)
      rw [if_neg hfit]
      omega

theorem lquantizeIndex_iff {arg : Word} (ha : lquantizeAccepts arg) (nval : Word) :
    LquantizeCounter (dtraceLquantizeBase arg).toInt (dtraceLquantizeStep arg)
        (dtraceLquantizeLevels arg) nval.toInt (lquantizeIndex arg nval) ↔
      LquantizeFits (dtraceLquantizeBase arg).toInt (dtraceLquantizeStep arg)
        (dtraceLquantizeLevels arg) nval.toInt (nval.setWidth 32).toInt := by
  obtain ⟨hstep, hlev⟩ := ha
  have hstep' : dtraceLquantizeStep arg < 2 ^ 16 := field_lt arg _ 48 (by decide)
  have hlev' : dtraceLquantizeLevels arg < 2 ^ 16 := field_lt arg _ 32 (by decide)
  obtain ⟨k, hk⟩ := low_toInt nval
  rw [lquantizeCounter_iff (by omega) (by omega), lquantizeIndex_eq ⟨hstep, hlev⟩ nval rfl]
  exact lquantize_arith ⟨by omega, by omega⟩ ⟨by omega, by omega⟩
    ⟨BitVec.le_toInt _, BitVec.toInt_lt⟩ ⟨BitVec.le_toInt _, BitVec.toInt_lt⟩ hk

theorem bump_inj {c : ℤ → Word} {i j : ℤ} (h : bump c 1 i = bump c 1 j) : i = j := by
  by_contra hne
  have hi := congrFun h i
  rw [bump, bump, update_self, update_of_ne hne] at hi
  bv_omega

/-- `lquantize` adds every increment to the counter of the value, and to no other, exactly when
the value fits; `quantize` adds it to the bucket of the value. -/
theorem histogram_exact_iff (arg nval : Word) (ha : lquantizeAccepts arg) :
    ((∀ lquanta incr, lquanta (-1) = arg → ∃ i,
      LquantizeCounter (dtraceLquantizeBase arg).toInt (dtraceLquantizeStep arg)
        (dtraceLquantizeLevels arg) nval.toInt i ∧
      dtraceAggregateLquantize lquanta nval incr = bump lquanta incr i) ↔
      LquantizeFits (dtraceLquantizeBase arg).toInt (dtraceLquantizeStep arg)
        (dtraceLquantizeLevels arg) nval.toInt (nval.setWidth 32).toInt) ∧
    ∀ quanta incr, ∃ k < dtraceQuantizeNbuckets, InBucket k nval.toInt ∧
      (∀ j < dtraceQuantizeNbuckets, InBucket j nval.toInt → j = k) ∧
      dtraceAggregateQuantize quanta nval incr = some (bump quanta incr k) := by
  rw [← lquantizeIndex_iff ha]
  refine ⟨⟨fun h => ?_, fun h lquanta incr harg => ⟨_, h, ?_⟩⟩, fun quanta incr => ?_⟩
  · obtain ⟨i, hi, heq⟩ := h (fun _ => arg) 1 rfl
    rwa [bump_inj heq]
  · rw [dtraceAggregateLquantize, harg]
  obtain ⟨k, hlt, hk, heq⟩ := quantize_bucket quanta nval incr
  refine ⟨k, hlt, hk, fun j hj hb => ?_, heq⟩
  rcases lt_trichotomy j k with hjk | hjk | hjk
  · exact (hb.unique hk hjk hlt).elim
  · exact hjk
  · exact (hk.unique hb hjk hj).elim

theorem histogram_exact_five : lquantizeAccepts 0x0001000a00000000 ∧
      ∀ lquanta : ℤ → Word, lquanta (-1) = 0x0001000a00000000 → ∃ i,
        LquantizeCounter 0 1 10 5 i ∧ dtraceAggregateLquantize lquanta 5 1 = bump lquanta 1 i := by
  have ha : lquantizeAccepts 0x0001000a00000000 := ⟨by decide, by decide⟩
  refine ⟨ha, fun lquanta harg => ?_⟩
  exact ((histogram_exact_iff _ 5 ha).1.2 (.inl ⟨by decide, by decide⟩)) lquanta 1 harg

/-- The base is `INT32_MIN`, with ten levels of one: zero is above them, but it is counted far
before the counters. -/
theorem lquantize_before_counters :
    lquantizeAccepts 0x0001000a80000000 ∧ lquantizeIndex 0x0001000a80000000 0 = -2 ^ 31 + 1 ∧
      LquantizeCounter (dtraceLquantizeBase 0x0001000a80000000).toInt
        (dtraceLquantizeStep 0x0001000a80000000) (dtraceLquantizeLevels 0x0001000a80000000) 0 11 :=
  ⟨⟨by decide, by decide⟩, by decide, .inr (.inr ⟨by decide, by decide⟩)⟩

end Osol.Dtrace
