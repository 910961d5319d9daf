import Osol.Lib.Digits

/-!
# Multiple precision integers

`BIGNUM` and the operations on it that modular exponentiation is made of. A chunk has `2 * h` bits,
where `h` is 16 or 32. A number is the list of its `len` words; the words of the memory behind
them are written before they are read. No allocation fails, so that `size` and `malloced` do not
enter, and lengths do not overflow an `int`. A result that shares its memory with an argument is
written after the argument is read. `none` is an error code other than `BIG_OK`, or an access
outside of an array.
-/

namespace Osol.Big

open Osol.Lib List

/-- `BIG_CHUNK_TYPE`. -/
abbrev Chunk (h : ℕ) := BitVec (2 * h)

structure Bignum (h : ℕ) where
  sign : ℤ
  value : List (Chunk h)
  deriving DecidableEq

variable {h : ℕ}

variable (n : Bignum h)

def Bignum.len : ℕ := n.value.length

def Bignum.abs : ℕ := num n.value

/-- `BIG_CHUNK_LOWHALFBITS`, `BIG_CHUNK_HALF_HIGHBIT`, `BIG_CHUNK_HIGHBIT`. -/
def lowhalfbits : Chunk h := BitVec.ofNat _ (2 ^ h - 1)
def halfHighbit : Chunk h := BitVec.ofNat _ (2 ^ (h - 1))
def highbit : Chunk h := BitVec.ofNat _ (2 ^ (2 * h - 1))

/-! ## Copies and comparisons -/

/-- `while ((len > lo) && (value[len - 1] == 0)) len--`. -/
def trimLen (lo : ℕ) (v : List (Chunk h)) : ℕ → ℕ
  | 0 => 0
  | n + 1 => if lo < n + 1 ∧ v.getD n 0 = 0 then trimLen lo v n else n + 1

/-- The words without leading zeros, but for one. -/
def trim (v : List (Chunk h)) : List (Chunk h) := v.take (trimLen 1 v v.length)

/-- What `big_copy` leaves in its destination, and in its source. -/
def bigCopy (src : Bignum h) : Bignum h := { src with value := trim src.value }

def bigIsZero : Bool := n.value.all (· = 0)

/-- `big_cmp_abs`: the words that only one of them has, and then the others from the highest
down. -/
def cmpAbs : List (Chunk h) → List (Chunk h) → Ordering
  | [], bb => if bb.any (· > 0) then .lt else .eq
  | a :: aa, [] => if (a :: aa).any (· > 0) then .gt else .eq
  | a :: aa, b :: bb => (cmpAbs aa bb).then (if a > b then .gt else if a < b then .lt else .eq)

/-! ## Sums and differences -/

/-- The second loop of `big_add_abs`. -/
def addCarry : List (Chunk h) → Chunk h → List (Chunk h) × Chunk h
  | [], cy => ([], cy)
  | ai :: c, cy =>
    let r := ai + cy
    let rest := addCarry c (if r ≥ ai then 0 else cy)
    (r :: rest.1, rest.2)

/-- Both loops of `big_add_abs`. -/
def addVec : List (Chunk h) → List (Chunk h) → Chunk h → List (Chunk h) × Chunk h
  | ai :: a, bi :: b, cy =>
    let r := ai + bi + cy
    let rest := addVec a b (if r > ai then 0 else if r < ai then 1 else cy)
    (r :: rest.1, rest.2)
  | [], b, cy => addCarry b cy
  | a, [], cy => addCarry a cy

def bigAddAbs (aa bb : Bignum h) : Bignum h :=
  let r := addVec aa.value bb.value 0
  ⟨1, if r.2 = 1 then r.1 ++ [r.2] else r.1⟩

/-- The second loop of `big_sub_pos`. -/
def subBorrow : List (Chunk h) → Chunk h → List (Chunk h) × Chunk h
  | [], cy => ([], cy)
  | ai :: a, cy =>
    let r := ai + ~~~0 + cy
    let rest := subBorrow a (if r < ai then 1 else cy)
    (r :: rest.1, rest.2)

/-- `big_sub_vec`, and both loops of `big_sub_pos`. -/
def subVec : List (Chunk h) → List (Chunk h) → Chunk h → List (Chunk h) × Chunk h
  | ai :: a, bi :: b, cy =>
    let r := ai + ~~~bi + cy
    let rest := subVec a b (if r > ai then 0 else if r < ai then 1 else cy)
    (r :: rest.1, rest.2)
  | a, [], cy => subBorrow a cy
  | [], _, cy => ([], cy)

def bigSubPos (aa bb : Bignum h) : Option (Bignum h) :=
  let r := subVec aa.value bb.value 1
  if r.2 = 0 then none else some ⟨1, r.1⟩

def bigSub (aa bb : Bignum h) : Option (Bignum h) :=
  if bb.sign = -1 ∧ aa.sign = 1 then some { bigAddAbs aa bb with sign := 1 }
  else if aa.sign = -1 ∧ bb.sign = 1 then some { bigAddAbs aa bb with sign := -1 }
  else if aa.sign = 1 ∧ bb.sign = 1 then
    if cmpAbs aa.value bb.value ≠ .lt then (bigSubPos aa bb).map ({ · with sign := 1 })
    else (bigSubPos bb aa).map ({ · with sign := -1 })
  else
    if cmpAbs aa.value bb.value ≠ .lt then (bigSubPos aa bb).map ({ · with sign := -1 })
    else (bigSubPos bb aa).map ({ · with sign := 1 })

def bigAdd (aa bb : Bignum h) : Option (Bignum h) :=
  if bb.sign = -1 ∧ aa.sign = -1 then some { bigAddAbs aa bb with sign := -1 }
  else if aa.sign = 1 ∧ bb.sign = 1 then some { bigAddAbs aa bb with sign := 1 }
  else if aa.sign = 1 ∧ bb.sign = -1 then
    if cmpAbs aa.value bb.value ≠ .lt then (bigSubPos aa bb).map ({ · with sign := 1 })
    else (bigSubPos bb aa).map ({ · with sign := -1 })
  else
    if cmpAbs aa.value bb.value ≠ .lt then (bigSubPos aa bb).map ({ · with sign := -1 })
    else (bigSubPos bb aa).map ({ · with sign := 1 })

/-! ## Shifts -/

/-- The loop of `big_shiftleft`. -/
def shlVec (offs : ℕ) : List (Chunk h) → Chunk h → List (Chunk h) × Chunk h
  | [], cy => ([], cy)
  | ai :: a, cy =>
    let rest := shlVec offs a (ai >>> (2 * h - offs))
    (((ai <<< offs) ||| cy) :: rest.1, rest.2)

/-- `big_shiftleft` to another number. -/
def bigShiftleft (aa : List (Chunk h)) (offs : ℕ) : List (Chunk h) :=
  if offs = 0 then trim aa
  else
    let r := shlVec offs aa 0
    if r.2 ≠ 0 then r.1 ++ [r.2] else r.1

/-- The loop of `big_shiftright`. -/
def shrVec (offs : ℕ) : List (Chunk h) → Chunk h → List (Chunk h)
  | [], cy => [cy]
  | ai :: a, cy => ((ai <<< (2 * h - offs)) ||| cy) :: shrVec offs a (ai >>> offs)

/-- `big_shiftright`; `same` says that it is done in place. -/
def bigShiftright (same : Bool) (aa : List (Chunk h)) (offs : ℕ) : Option (List (Chunk h)) :=
  if offs = 0 then some (if same then aa else trim aa)
  else
    match aa with
    | [] => none
    | a0 :: a => some (shrVec offs a (a0 >>> offs))

/-! ## Division -/

def mulhalfLow (b : Chunk h) : List (Chunk h) → Chunk h → List (Chunk h)
  | [], cy => [cy]
  | ai :: a, cy =>
    let t1 := (ai &&& lowhalfbits) * b + cy
    let t2 := (ai >>> h) * b + (t1 >>> h)
    ((t1 &&& lowhalfbits) ||| (t2 <<< h)) :: mulhalfLow b a (t2 >>> h)

def mulhalfHigh (b : Chunk h) : List (Chunk h) → Chunk h → Chunk h → List (Chunk h)
  | [], cy, ri => [(cy <<< h) + ri]
  | ai :: a, cy, ri =>
    let t1 := (ai &&& lowhalfbits) * b + cy
    let t2 := (ai >>> h) * b + (t1 >>> h)
    ((t1 <<< h) + ri) :: mulhalfHigh b a (t2 >>> h) (t2 &&& lowhalfbits)

def subPosHigh (aa bb : List (Chunk h)) : List (Chunk h) :=
  let lendiff := aa.length - bb.length
  aa.take lendiff ++ (subVec (aa.drop lendiff) bb 1).1

def cmpAbsHigh (aa bb : List (Chunk h)) : Ordering := cmpAbs (aa.drop (aa.length - bb.length)) bb

/-- `while ((highb & BIG_CHUNK_HALF_HIGHBIT) == 0) { highb = highb << 1; offs++; }`. -/
def normalize : ℕ → Chunk h → ℕ → Option ℕ
  | 0, _, _ => none
  | n + 1, highb, offs =>
    if highb &&& halfHighbit = 0 then normalize n (highb <<< 1) (offs + 1) else some offs

/-- The shift that brings the highest bit of the divisor to the middle of a word. -/
def divOffs (highb : Chunk h) : Option ℕ :=
  if highb ≥ halfHighbit <<< 1 then normalize (h + 1) (highb >>> h) h else normalize (h + 1) highb 0

/-- `while (tmp1.value[tlen - 1] > 0)`, at most `n` times. -/
def subWhileTop (bbhigh : List (Chunk h)) : ℕ → List (Chunk h) → Chunk h →
    Option (List (Chunk h) × Chunk h)
  | 0, _, _ => none
  | n + 1, tmp1, coeff =>
    if tmp1.getD (tmp1.length - 1) 0 > 0 then subWhileTop bbhigh n (subPosHigh tmp1 bbhigh) (coeff + 1)
    else some (tmp1, coeff)

/-- `while (big_cmp_abs_high(&tmp1, &bb) >= 0)`, at most `n` times. -/
def subWhileGe (bb : List (Chunk h)) : ℕ → List (Chunk h) → Chunk h →
    Option (List (Chunk h) × Chunk h)
  | 0, _, _ => none
  | n + 1, tmp1, coeff =>
    if cmpAbsHigh tmp1 bb ≠ .lt then subWhileGe bb n (subPosHigh tmp1 bb) (coeff + 1)
    else some (tmp1, coeff)

/-- The high half of a word of the quotient, after which `tmp1` has a word less. -/
def divHalfHigh (bblow bbhigh : List (Chunk h)) (tmp1 : List (Chunk h)) :
    Option (List (Chunk h) × Chunk h) := do
  let highb := bblow.getD (bblow.length - 1) 0
  let tlen := tmp1.length
  let higha := (tmp1.getD (tlen - 1) 0 <<< h) + (tmp1.getD (tlen - 2) 0 >>> h)
  let coeff := higha / (highb + 1)
  let tmp1 := subPosHigh tmp1 (mulhalfHigh coeff bblow 0 0)
  let (tmp1, coeff) ← subWhileTop (bbhigh ++ [0]) (2 ^ (2 * h)) tmp1 coeff
  subWhileGe bbhigh (2 ^ (2 * h)) tmp1.dropLast coeff

def divHalfLow (bblow : List (Chunk h)) (tmp1 : List (Chunk h)) : Option (List (Chunk h) × Chunk h) :=
  let highb := bblow.getD (bblow.length - 1) 0
  let higha := tmp1.getD (tmp1.length - 1) 0
  let coeff := higha / (highb + 1)
  let tmp1 := subPosHigh tmp1 (mulhalfLow coeff bblow 0).dropLast
  subWhileGe bblow (2 ^ (2 * h)) tmp1 coeff

/-- One turn of the loop of `big_div_pos`: `tmp1` with a word less, and a word of the quotient. -/
def divStep (bblow bbhigh : List (Chunk h)) (tmp1 : List (Chunk h)) :
    Option (List (Chunk h) × Chunk h) := do
  let (tmp1, high) ← divHalfHigh bblow bbhigh tmp1
  let (tmp1, low) ← divHalfLow bblow tmp1
  some (tmp1, (high <<< h) + low)

/-- The loop, with the words of the quotient that are there already. -/
def divLoop (bblow bbhigh : List (Chunk h)) : ℕ → List (Chunk h) → List (Chunk h) →
    Option (List (Chunk h) × List (Chunk h))
  | 0, tmp1, tresult => some (tmp1, tresult)
  | n + 1, tmp1, tresult => do
    let (tmp1, q) ← divStep bblow bbhigh tmp1
    divLoop bblow bbhigh n tmp1 (q :: tresult)

/-- `bblow` and `bbhigh`, the latter without a leading zero. -/
def divHigh (bblow : List (Chunk h)) (offs : ℕ) : Option (List (Chunk h)) := do
  let bbhigh ← if offs ≤ h - 1 then some (bigShiftleft bblow h) else bigShiftright false bblow h
  some (if bbhigh.getD (bbhigh.length - 1) 0 = 0 then bbhigh.dropLast else bbhigh)

/-- `big_div_pos`: the quotient and the remainder. The arguments lose their leading zeros. -/
def bigDivPos (aa bb : Bignum h) : Option (Bignum h × Bignum h) :=
  let aa := bigCopy aa
  let bb := bigCopy bb
  if bb.value = [0] then none
  else if cmpAbs aa.value bb.value = .lt then some (⟨1, [0]⟩, bigCopy aa)
  else do
    let offs ← divOffs (bb.value.getD (bb.len - 1) 0)
    let bblow := bigShiftleft bb.value offs
    let bbhigh ← divHigh bblow offs
    let tmp1 := bigShiftleft aa.value offs
    let rlen := tmp1.length - bblow.length + 1
    let (tmp1, tresult) ← divLoop bblow bbhigh rlen (tmp1 ++ [0]) []
    let tmp1 ← bigShiftright true tmp1 offs
    some (bigCopy ⟨1, tresult⟩, bigCopy ⟨aa.sign, tmp1⟩)

/-! ## Multiplication -/

/-- The functions that there are for each processor, `BIG_MUL_ADD_VEC`, `BIG_MUL_VEC` and
`BIG_SQR_VEC`, with what they compute. -/
structure VecOps (h : ℕ) where
  mulAddVec : List (Chunk h) → List (Chunk h) → Chunk h → List (Chunk h) × Chunk h
  mulVec : List (Chunk h) → List (Chunk h) → List (Chunk h)
  sqrVec : List (Chunk h) → List (Chunk h)
  mulAddVec_length : ∀ r a digit, a ≠ [] → r.length = a.length → (mulAddVec r a digit).1.length = a.length
  mulAddVec_num : ∀ r a digit, a ≠ [] → r.length = a.length →
    num (mulAddVec r a digit).1 + (2 ^ (2 * h)) ^ a.length * (mulAddVec r a digit).2.toNat =
      num r + num a * digit.toNat
  mulVec_length : ∀ a b, a ≠ [] → b ≠ [] → (mulVec a b).length = a.length + b.length
  mulVec_num : ∀ a b, a ≠ [] → b ≠ [] → num (mulVec a b) = num a * num b
  sqrVec_length : ∀ a, 2 < a.length → (sqrVec a).length = a.length + a.length
  sqrVec_num : ∀ a, 2 < a.length → num (sqrVec a) = num a * num a

variable (ops : VecOps h)

def bigMul (aa bb : Bignum h) : Bignum h :=
  let diff := cmpAbs aa.value bb.value
  let (aa, bb) := if diff = .lt then (bb, aa) else (aa, bb)
  let a := trim aa.value
  let b := trim bb.value
  let sign := aa.sign * bb.sign
  if a = [0] ∨ b = [0] then ⟨1, [0]⟩
  else if a = [1] then ⟨sign, b⟩
  else if b = [1] then ⟨sign, a⟩
  else
    let t := if diff = .eq ∧ a.length > 2 then ops.sqrVec a else ops.mulVec a b
    let t := if t.getD (a.length + b.length - 1) 0 = 0 then t.dropLast else t
    ⟨sign, trim t⟩

/-- `rr[j] += c; while (rr[j] < c) { rr[++j] += 1; c = 1; }`, from `rr[j]` on. -/
def addAt : List (Chunk h) → Chunk h → Option (List (Chunk h))
  | [], _ => none
  | r :: rr, c =>
    if r + c < c then (addAt rr 1).map ((r + c) :: ·) else some ((r + c) :: rr)

/-- The words from `i` on change by a function of them. -/
def atOffset (i : ℕ) (f : List (Chunk h) → Option (List (Chunk h))) (rr : List (Chunk h)) :
    Option (List (Chunk h)) :=
  (f (rr.drop i)).map (rr.take i ++ ·)

/-- `BIG_MUL_ADD_VEC(rrplusi, nn, nlen, digit)`, where `rrplusi` is followed by other words. -/
def mulAddRow (nn : List (Chunk h)) (n0 : Chunk h) (rr : List (Chunk h)) : List (Chunk h) × Chunk h :=
  let digit := rr.getD 0 0 * n0
  let r := ops.mulAddVec (rr.take nn.length) nn digit
  (r.1 ++ rr.drop nn.length, r.2)

/-- The rows of a Montgomery reduction from `i` on, of which there are `k`. -/
def montRows (nn : List (Chunk h)) (n0 : Chunk h) : ℕ → ℕ → List (Chunk h) → Option (List (Chunk h))
  | 0, _, rr => some rr
  | k + 1, i, rr => do
    let row := mulAddRow ops nn n0 (rr.drop i)
    let rr ← atOffset (i + nn.length) (addAt · row.2) (rr.take i ++ row.1)
    montRows nn n0 k (i + 1) rr

/-- The first of the two loops for an Intel processor: the rows, with the carries. -/
def montRowsFirst (nn : List (Chunk h)) (n0 : Chunk h) : ℕ → ℕ → List (Chunk h) →
    List (Chunk h) × List (Chunk h)
  | 0, _, rr => (rr, [])
  | k + 1, i, rr =>
    let row := mulAddRow ops nn n0 (rr.drop i)
    let rest := montRowsFirst nn n0 k (i + 1) (rr.take i ++ row.1)
    (rest.1, row.2 :: rest.2)

/-- The second: the carries, from `j` on. -/
def montCarries : List (Chunk h) → ℕ → List (Chunk h) → Option (List (Chunk h))
  | [], _, rr => some rr
  | c :: carry, j, rr => do
    let rr ← atOffset j (addAt · c) rr
    montCarries carry (j + 1) rr

def bigtmpsize : ℕ := 65

variable (intel : Bool)

/-- `big_mont_mul`; `intel` is `big_cpu == BIG_CPU_INTEL`. -/
def bigMontMul (a b n : Bignum h) (n0 : Chunk h) : Option (Bignum h) := do
  let nlen := n.len
  let ret := bigMul ops a b
  let rr := ret.value ++ replicate (2 * nlen + 1 - ret.len) 0
  let rr ←
    if intel ∧ nlen ≤ bigtmpsize then
      let first := montRowsFirst ops n.value n0 nlen 0 rr
      montCarries first.2 nlen first.1
    else montRows ops n.value n0 nlen 0 rr
  let high := (rr.drop nlen).take nlen
  let needsubtract := rr.getD (2 * nlen) 0 ≠ 0 ∨ cmpAbs high n.value = .gt
  let r := if needsubtract then (subVec high n.value 1).1 else high
  some { ret with value := trim r }

def n0Loop (n : Chunk h) : ℕ → Chunk h → Chunk h → Chunk h
  | 0, result, _ => result
  | k + 1, result, tmp =>
    if tmp &&& 1 = 1 then n0Loop n k ((result >>> 1) ||| highbit) ((tmp - n) >>> 1)
    else n0Loop n k (result >>> 1) (tmp >>> 1)

def bigN0 (n : Chunk h) : Chunk h := n0Loop n (2 * h) 0 (~~~0)

/-- The second loop of `big_numbits`. -/
def wordBits (t : Chunk h) : ℕ → Option ℕ
  | 0 => none
  | j + 1 => if t &&& highbit = 0 then wordBits (t <<< 1) j else some (j + 1)

/-- `for (i = n->len - 1; i > 0; i--) if (n->value[i] != 0) break`. -/
def topWord (v : List (Chunk h)) : ℕ → ℕ
  | 0 => 0
  | i + 1 => if v.getD (i + 1) 0 ≠ 0 then i + 1 else topWord v i

def bigNumbits : ℕ :=
  let i := topWord n.value (n.len - 1)
  match wordBits (n.value.getD i 0) (2 * h) with
  | some j => 2 * h * i + j
  | none => 0

def bigMontRr : Option (Bignum h) := do
  let rr : Bignum h := ⟨1, replicate (2 * n.len) 0 ++ [1]⟩
  let (_, rr) ← bigDivPos rr n
  some (bigCopy rr)

def bigMontConv (a n : Bignum h) (n0 : Chunk h) (nRr : Option (Bignum h)) : Option (Bignum h) := do
  let rr ←
    match nRr with
    | some rr => some rr
    | none => (bigDivPos ⟨1, replicate (2 * n.len) 0 ++ [1]⟩ n).map Prod.snd
  let rr ← bigMontMul ops intel rr a n n0
  some (bigCopy rr)

/-! ## Exponentiation -/

/-- The bits of the exponent in the order of the two loops. -/
def expBits (e : Bignum h) : List Bool :=
  let nbits := bigNumbits e
  (range (nbits / (2 * h) + 1)).reverse.flatMap fun i =>
    (range (if i = nbits / (2 * h) then nbits % (2 * h) else 2 * h)).reverse.map fun j =>
      (e.value.getD i 0).getLsbD j

/-- The variables of the loop over the bits. -/
structure Window (h : ℕ) where
  tmp : Bignum h
  k : ℕ
  l : ℕ
  p : ℕ
  bitcount : ℕ

/-- `for (m = 0; m < k; m++) big_mont_mul(tmp, tmp, tmp, n, n0)`. -/
def squares (intel : Bool) (n : Bignum h) (n0 : Chunk h) : ℕ → Bignum h → Option (Bignum h)
  | 0, tmp => some tmp
  | k + 1, tmp => do squares intel n n0 k (← bigMontMul ops intel tmp tmp n n0)

/-- The pending squarings, and the power of the window between them. -/
def flush (apowers : List (Bignum h)) (n : Bignum h) (n0 : Chunk h) (s : Window h) :
    Option (Bignum h) := do
  let tmp ← squares ops intel n n0 s.k s.tmp
  let tmp ← bigMontMul ops intel tmp (← apowers[s.p >>> (s.l + 1)]?) n n0
  squares ops intel n n0 s.l tmp

/-- The body of the loop over the bits. -/
def windowStep (apowers : List (Bignum h)) (groupbits : ℕ) (n : Bignum h)
    (n0 : Chunk h) (s : Window h) (bit : Bool) : Option (Window h) :=
  if s.bitcount = 0 ∧ bit = false then do
    some { s with tmp := ← bigMontMul ops intel s.tmp s.tmp n n0 }
  else
    let s := { s with bitcount := s.bitcount + 1, p := s.p * 2 + bit.toNat }
    let s := if bit then { s with k := s.k + s.l + 1, l := 0 } else { s with l := s.l + 1 }
    if s.bitcount = groupbits then do
      some ⟨← flush ops intel apowers n n0 s, 0, 0, 0, 0⟩
    else some s

/-- The odd powers after the first: `apowers[i] = ma * apowers[i - 1]`, `k` of them. -/
def oddPowers (intel : Bool) (ma n : Bignum h) (n0 : Chunk h) : ℕ → Bignum h → Option (List (Bignum h))
  | 0, prev => some [prev]
  | k + 1, prev => do
    let next := bigCopy (← bigMontMul ops intel ma prev n n0)
    some (prev :: (← oddPowers intel ma n n0 k next))

def maxExpBitGroupSize : ℕ := 6

/-- `big_modexp_ncp_int`, whose `result` is `tmp`. -/
def bigModexpNcpInt (ma e n tmp : Bignum h) (n0 : Chunk h) : Option (Bignum h) := do
  let nbits := bigNumbits e
  let groupbits := if nbits < 50 then 1 else maxExpBitGroupSize
  let apowerssize := if nbits < 50 then 1 else 1 <<< (groupbits - 1)
  let ma2 := bigCopy (← bigMontMul ops intel ma ma n n0)
  let apowers ← oddPowers ops intel ma2 n n0 (apowerssize - 1) (bigCopy ma)
  let s ← (expBits e).foldlM (windowStep ops intel apowers groupbits n n0) ⟨tmp, 0, 0, 0, 0⟩
  let tmp ← squares ops intel n n0 s.k s.tmp
  let tmp ←
    if s.p ≠ 0 then do bigMontMul ops intel tmp (← apowers[s.p >>> (s.l + 1)]?) n n0 else some tmp
  squares ops intel n n0 s.l tmp

/-- `big_modexp_ext` without a function of the caller's, that is `big_modexp`. A division takes
the leading zeros off the modulus. -/
def bigModexp (a e n : Bignum h) (nRr : Option (Bignum h)) : Option (Bignum h) := do
  let rr ←
    match nRr with
    | some rr => some rr
    | none => bigMontRr n
  let n := if nRr = none then bigCopy n else n
  let n0 := bigN0 (n.value.getD 0 0)
  let greater := cmpAbs a.value n.value = .gt
  let a ← if greater then (bigDivPos a n).map Prod.snd else some a
  let n := if greater then bigCopy n else n
  let ma ← bigMontConv ops intel a n n0 (some rr)
  let tmp ← bigMontConv ops intel ⟨1, [1]⟩ n n0 (some rr)
  let tmp ← bigModexpNcpInt ops intel ma e n tmp n0
  let tmp ← bigMontMul ops intel tmp ⟨1, [1]⟩ n n0
  some (bigCopy tmp)

/-- `big_modexp_crt_ext` without a function of the caller's, that is `big_modexp_crt`. -/
def bigModexpCrt (a dmodpminus1 dmodqminus1 p q pinvmodq : Bignum h)
    (pRr qRr : Option (Bignum h)) : Option (Bignum h) := do
  let alen := trimLen p.len a.value a.len
  let a ← if alen < p.len + q.len then bigAdd (bigMul ops p q) a else some a
  let (_, ap) ← bigDivPos a p
  let (_, aq) ← bigDivPos a q
  let p := bigCopy p
  let q := bigCopy q
  let ap ← bigModexp ops intel ap dmodpminus1 p pRr
  let aq ← bigModexp ops intel aq dmodqminus1 q qRr
  let tmp ← bigSub aq ap
  let tmp := bigMul ops tmp pinvmodq
  let sign := tmp.sign
  let (_, aq) ← bigDivPos { tmp with sign := 1 } q
  let aq ← if sign = -1 ∧ !bigIsZero aq then bigSubPos q aq else some aq
  some (bigAddAbs ap (bigMul ops aq p))

end Osol.Big
