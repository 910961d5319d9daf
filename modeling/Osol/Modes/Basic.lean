import Osol.Lib.Blocks
import Osol.Lib.Endian

/-!
# Block cipher modes

What the modes of `common/crypto/modes` share: the block function, the counter field of a
counter block, and the loop of the functions that process contiguous blocks with a separate
output. A block is a list of 16 bytes. The output is contiguous and has room, so
`crypto_get_ptrs` gives one piece and the output is what is appended to it.
-/

namespace Osol.Modes

open Osol.Lib List BitVec

/-- A block function, under its key. -/
structure Cipher where
  enc : List Byte → List Byte
  length_enc : ∀ b, (enc b).length = 16

attribute [simp] Cipher.length_enc

/-- The block function that gives 0 to 15, whatever the block. -/
def counting : Cipher := ⟨fun _ => (range 16).map (BitVec.ofNat 8), fun _ => by simp⟩

/-- The values the functions return. -/
inductive Rv where
  | success
  | dataLenRange
  | encryptedDataLenRange
  | bufferTooSmall
  | invalidMac
  | mechanismParamInvalid
  | hostMemory
  deriving DecidableEq

/-- `xor_block`, and the loops that XOR the first bytes of a block. -/
def xorBytes (a b : List Byte) : List Byte := zipWith (· ^^^ ·) a b

@[simp] theorem length_xorBytes (a b : List Byte) : (xorBytes a b).length = min a.length b.length :=
  length_zipWith

/-! ## Counter blocks -/

/-- A counter block: its two words as `ntohll` gives them. -/
structure Cb where
  upper : BitVec 64
  lower : BitVec 64
  deriving DecidableEq

def Cb.bytes (cb : Cb) : List Byte :=
  (toBytes 8 cb.upper.toNat).reverse ++ (toBytes 8 cb.lower.toNat).reverse

@[simp] theorem Cb.length_bytes (cb : Cb) : cb.bytes.length = 16 := by
  simp [Cb.bytes]

/-- The counter in the bits of `mask`, plus one. -/
def bumped (mask w : BitVec 64) : BitVec 64 := ((w &&& mask) + 1) &&& mask

/-- The word with its counter incremented and the other bits as they were. -/
def bump (mask w : BitVec 64) : BitVec 64 := (w &&& ~~~mask) ||| bumped mask w

def lowMask (k : ℕ) : BitVec 64 := BitVec.ofNat 64 (2 ^ k - 1)

variable {k : ℕ}

section

variable (hk : k ≤ 64) (w : BitVec 64)
include hk w

theorem and_lowMask : (w &&& lowMask k).toNat = w.toNat % 2 ^ k := by
  have hlt : 2 ^ k - 1 < 2 ^ 64 := by
    have := Nat.pow_le_pow_right (n := 2) (by decide) hk
    omega
  rw [toNat_and, lowMask, toNat_ofNat, Nat.mod_eq_of_lt hlt, Nat.and_two_pow_sub_one_eq_mod]

theorem toNat_bumped : (bumped (lowMask k) w).toNat = (w.toNat + 1) % 2 ^ k := by
  have hdvd : 2 ^ k ∣ 2 ^ 64 := Nat.pow_dvd_pow 2 hk
  rw [bumped, and_lowMask hk, toNat_add, and_lowMask hk, Nat.mod_mod_of_dvd _ hdvd]
  simp

theorem toNat_bump_mod : (bump (lowMask k) w).toNat % 2 ^ k = (w.toNat + 1) % 2 ^ k := by
  have hand : bump (lowMask k) w &&& lowMask k = bumped (lowMask k) w &&& lowMask k := by
    ext i hi
    simp only [bump, getElem_and, getElem_or, getElem_not]
    cases (lowMask k)[i] <;> simp
  have h := congrArg BitVec.toNat hand
  rwa [and_lowMask hk, and_lowMask hk, toNat_bumped hk, Nat.mod_mod] at h

end

theorem bump_zero (w : BitVec 64) : bump (lowMask 0) w = w := by
  have hz : lowMask 0 = 0#64 := rfl
  rw [bump, bumped, hz, not_zero, and_allOnes, and_zero, or_zero]

/-! ## Keystreams -/

section Stream

variable (E : Cipher) (nx : Cb → Cb)

/-- Bytes XORed with the encryptions of the counter blocks from `cb` on. -/
def xorStream (cb : Cb) (l : List Byte) : List Byte :=
  l.mapIdx fun p x => x ^^^ (E.enc (nx^[p / 16] cb).bytes).getD (p % 16) 0

@[simp] theorem length_xorStream (cb : Cb) (l : List Byte) : (xorStream E nx cb l).length = l.length :=
  length_mapIdx

theorem xorStream_short (cb : Cb) {l : List Byte} (h : l.length ≤ 16) :
    xorStream E nx cb l = xorBytes l (E.enc cb.bytes) := by
  refine ext_getElem (by simp; omega) fun i hi _ => ?_
  rw [length_xorStream] at hi
  have hlt : i < (E.enc cb.bytes).length := by rw [E.length_enc]; omega
  have hdiv : i / 16 = 0 := by omega
  have hmod : i % 16 = i := by omega
  simp only [xorStream, xorBytes, getElem_mapIdx, getElem_zipWith, hdiv, hmod, Function.iterate_zero, id_eq]
  rw [getD_eq_getElem?_getD, List.getElem?_eq_getElem hlt, Option.getD_some]

theorem xorStream_append (cb : Cb) {l : List Byte} (h : l.length % 16 = 0) (k : List Byte) :
    xorStream E nx cb (l ++ k) = xorStream E nx cb l ++ xorStream E nx (nx^[l.length / 16] cb) k := by
  unfold xorStream
  rw [mapIdx_append]
  congr 2
  funext p x
  have hdiv : (p + l.length) / 16 = p / 16 + l.length / 16 := by omega
  have hmod : (p + l.length) % 16 = p % 16 := by omega
  rw [hdiv, hmod, Function.iterate_add_apply]

theorem xorStream_xorStream (cb : Cb) (l : List Byte) : xorStream E nx cb (xorStream E nx cb l) = l := by
  refine ext_getElem (by simp) fun i _ _ => ?_
  simp only [xorStream, getElem_mapIdx]
  rw [xor_assoc, BitVec.xor_self, xor_zero]

end Stream

/-! ## Contiguous blocks -/

section Contiguous

variable {σ β : Type*} (short : Rv) (step : σ → List Byte → σ × List β)

/-- The loop over the data of a call. `rem` is what the context holds from the last call; the
loop makes at most `fuel` rounds. `short` is returned for data that do not fill a block. -/
def contiguousLoop : ℕ → σ → List Byte → List Byte → List β → Rv × σ × List Byte × List β
  | 0, s, rem, _, out => (.success, s, rem, out)
  | fuel + 1, s, rem, data, out =>
    let need := 16 - rem.length
    if 0 < rem.length ∧ data.length < need then (short, s, rem, out)
    else
      let r := step s (rem ++ data.take need)
      let data := data.drop need
      if 0 < data.length ∧ data.length < 16 then (.success, r.1, data, out ++ r.2)
      else if data.length = 0 then (.success, r.1, [], out ++ r.2)
      else contiguousLoop fuel r.1 [] data (out ++ r.2)

/-- A call that processes contiguous blocks: bytes that do not fill a block are only kept. -/
def contiguousBlocks (s : σ) (rem data : List Byte) : Rv × σ × List Byte × List β :=
  if data.length + rem.length < 16 then (.success, s, rem ++ data, [])
  else contiguousLoop short step data.length s rem data []

variable {rem : List Byte}

theorem contiguousLoop_eq {fuel : ℕ} {s : σ} {data : List Byte} (out : List β)
    (hrem : rem.length < 16) (hdata : 16 ≤ rem.length + data.length) (hfuel : data.length ≤ fuel) :
    contiguousLoop short step fuel s rem data out =
      (.success, (runBlocks 16 step s (rem ++ data)).1, (runBlocks 16 step s (rem ++ data)).2.1,
        out ++ (runBlocks 16 step s (rem ++ data)).2.2) := by
  induction fuel generalizing s rem data out with
  | zero => omega
  | succ fuel ih =>
    have hblock : (rem ++ data.take (16 - rem.length)).length = 16 := by
      rw [length_append, length_take]
      omega
    have hsplit : rem ++ data = (rem ++ data.take (16 - rem.length)) ++ data.drop (16 - rem.length) := by
      rw [List.append_assoc, take_append_drop]
    have hlen : (data.drop (16 - rem.length)).length = data.length - (16 - rem.length) := length_drop
    rw [hsplit, runBlocks_block (by decide) hblock, contiguousLoop]
    simp only
    rw [if_neg (by omega)]
    split
    · next h => rw [runBlocks_of_lt h.2, append_nil]
    · split
      · next h => rw [eq_nil_of_length_eq_zero h, runBlocks_of_lt (by simp), append_nil]
      · rw [ih _ (by simp) (by simp only [length_nil]; omega) (by omega), nil_append, List.append_assoc]

theorem contiguousBlocks_eq (s : σ) (hrem : rem.length < 16) (data : List Byte) :
    contiguousBlocks short step s rem data = (.success, runBlocks 16 step s (rem ++ data)) := by
  unfold contiguousBlocks
  split
  · next h => rw [runBlocks_of_lt (by rw [length_append]; omega)]
  · rw [contiguousLoop_eq short step [] hrem (by omega) le_rfl]
    rfl

/-- Calls one after the other, until one fails. -/
def contiguousRun : σ → List Byte → List (List Byte) → Rv × σ × List Byte × List β
  | s, rem, [] => (.success, s, rem, [])
  | s, rem, data :: rest =>
    match contiguousBlocks short step s rem data with
    | (.success, s, rem, out) =>
      let r := contiguousRun s rem rest
      (r.1, r.2.1, r.2.2.1, out ++ r.2.2.2)
    | r => r

/-- However the input is cut, the calls do what one call over all of it does. -/
theorem contiguousRun_eq (s : σ) (hrem : rem.length < 16) (pieces : List (List Byte)) :
    contiguousRun short step s rem pieces = (.success, runBlocks 16 step s (rem ++ pieces.flatten)) := by
  induction pieces generalizing s rem with
  | nil => rw [contiguousRun, flatten_nil, append_nil, runBlocks_of_lt hrem]
  | cons data rest ih =>
    have hrest : (runBlocks 16 step s (rem ++ data)).2.1.length < 16 := by
      rw [length_runBlocks_rest (by decide)]
      exact Nat.mod_lt _ (by decide)
    rw [contiguousRun, contiguousBlocks_eq short step s hrem, flatten_cons, ← List.append_assoc,
      runBlocks_append (by decide) s (rem ++ data)]
    simp only
    rw [ih _ hrest]

end Contiguous

end Osol.Modes
