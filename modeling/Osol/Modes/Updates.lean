import Osol.Modes.Ctr
import Osol.Modes.Gcm

/-!
# Messages in pieces

The functions that encrypt or decrypt contiguous blocks with a separate output, and CBC with them:
however a message is cut into calls, they do what the mode says of its full blocks and keep the
rest.
-/

namespace Osol.Modes

open Osol.Lib List

/-! ## CBC -/

/-- A round of `cbc_encrypt_contiguous_blocks`: `lastp` stays at `cbc_iv`. -/
def cbcEncStep (E : Cipher) (iv block : List Byte) : List Byte × List Byte :=
  let out := E.enc (xorBytes block iv)
  (out, out)

/-- `cbc_iv`, `cbc_lastblock`, and whether `cbc_lastp` is the former. -/
structure CbcCtx where
  iv : List Byte
  lastblock : List Byte
  atIv : Bool

def CbcCtx.lastp (c : CbcCtx) : List Byte := if c.atIv then c.iv else c.lastblock

/-- The block is copied to `OTHER(lastp)`. -/
def CbcCtx.setOther (c : CbcCtx) (block : List Byte) : CbcCtx :=
  if c.atIv then ⟨c.iv, block, false⟩ else ⟨block, c.lastblock, true⟩

@[simp] theorem CbcCtx.lastp_setOther (c : CbcCtx) (block : List Byte) :
    (c.setOther block).lastp = block := by
  unfold CbcCtx.setOther
  split <;> rfl

/-- A round of `cbc_decrypt_contiguous_blocks`, with the block function of decryption. -/
def cbcDecStep (D : Cipher) (c : CbcCtx) (block : List Byte) : CbcCtx × List Byte :=
  (c.setOther block, xorBytes c.lastp (D.enc block))

/-! ## The modes, as they are defined -/

variable (E D : Cipher)

variable {w : ℕ} {E D} {bs : List (List Byte)}

/-- What is left of a message. -/
def rest (m : List Byte) : List Byte := m.drop (m.length / 16 * 16)

/-- A block function that adds to each byte. -/
def adding (k : Byte) : Cipher := ⟨fun b => (b.map (· + k) ++ replicate 16 0).take 16, by simp⟩

/-- 33 bytes, cut in the second block. -/
def cutInBlock : List (List Byte) := [(range 20).map (BitVec.ofNat 8), [], (range 13).map (BitVec.ofNat 8)]

/-- A block function with its inverse. -/
structure KeyPair where
  E : Cipher
  D : Cipher
  back : ∀ b, b.length = 16 → D.enc (E.enc b) = b

theorem KeyPair.runBlocks_back (k : KeyPair) {c : CbcCtx} (hc : c.lastp.length = 16) (m : List Byte) :
    let e := runBlocks 16 (cbcEncStep k.E) c.lastp m
    ∃ c' p, runBlocks 16 (cbcDecStep k.D) c e.2.2 = (c', [], p) ∧ c'.lastp = e.1 ∧ p ++ e.2.1 = m := by
  induction m using blocks_induction (n := 16) (by decide) generalizing c with
  | short m h =>
    simp only [runBlocks_of_lt h]
    exact ⟨c, [], runBlocks_of_lt (by decide), rfl, rfl⟩
  | block b l hb ih =>
    have hy : (k.E.enc (xorBytes b c.lastp)).length = 16 := k.E.length_enc _
    have hback : xorBytes c.lastp (k.D.enc (k.E.enc (xorBytes b c.lastp))) = b := by
      rw [k.back _ (by simp [hb, hc])]
      exact ext_getElem (by simp [hb, hc]) fun i _ _ => by simp [xorBytes]
    obtain ⟨c', p, hrun, hc', hp⟩ := ih (c := c.setOther (k.E.enc (xorBytes b c.lastp)))
      (by rw [CbcCtx.lastp_setOther]; exact hy)
    rw [CbcCtx.lastp_setOther] at hrun hc' hp
    have h0 : 0 < 16 := by decide
    simp only [runBlocks_block h0 hb, cbcEncStep, runBlocks_block h0 hy, cbcDecStep, hback, hrun]
    exact ⟨c', b ++ p, rfl, hc', by rw [List.append_assoc, hp]⟩

/-- However a message is cut for encryption and its ciphertext for decryption, the full blocks come
back, and both sides go on from the same block. -/
theorem cbc_round_trip (k : KeyPair) (iv : {b : List Byte // b.length = 16}) (lastblock : List Byte)
    (ps : List (List Byte)) : ∃ iv' rem out,
    contiguousRun .dataLenRange (cbcEncStep k.E) iv.1 [] ps = (.success, iv', rem, out) ∧
      rem.length < 16 ∧ ∀ qs, qs.flatten = out → ∃ c p, c.lastp = iv' ∧ p ++ rem = ps.flatten ∧
        contiguousRun .encryptedDataLenRange (cbcDecStep k.D) ⟨iv.1, lastblock, true⟩ [] qs =
          (.success, c, [], p) := by
  obtain ⟨c, p, hrun, hc, hp⟩ := k.runBlocks_back (c := ⟨iv.1, lastblock, true⟩) iv.2 ps.flatten
  refine ⟨_, _, _, contiguousRun_eq _ _ _ (by decide) ps, ?_, fun qs hqs => ⟨c, p, hc, hp, ?_⟩⟩
  · rw [length_runBlocks_rest (by decide)]
    exact Nat.mod_lt _ (by decide)
  · rw [contiguousRun_eq _ _ _ (by decide), nil_append, hqs]
    exact congrArg _ hrun

/-- Two blocks and a rest, and back in pieces of 7 and 25 bytes. -/
theorem cbc_round_trip_cut : ∃ iv out,
    contiguousRun .dataLenRange (cbcEncStep (adding 1)) (replicate 16 9) [] cutInBlock =
      (.success, iv, [12], out) ∧
    ∃ c, contiguousRun .encryptedDataLenRange (cbcDecStep (adding (-1))) ⟨replicate 16 9, [], true⟩ []
      [out.take 7, out.drop 7] = (.success, c, [], cutInBlock.flatten.take 32) ∧ c.lastp = iv := by
  obtain ⟨iv, rem, out, henc, hrem, hdec⟩ := cbc_round_trip
    ⟨adding 1, adding (-1), fun b hb => by simp [adding, hb]⟩ ⟨replicate 16 9, rfl⟩ [] cutInBlock
  obtain rfl : [12] = rem := Eq.trans (by decide +kernel) (congrArg (·.2.2.1) henc)
  obtain ⟨c, p, hc, hp, hrun⟩ := hdec [out.take 7, out.drop 7] (by simp)
  obtain rfl : p = cutInBlock.flatten.take 32 := append_cancel_right (hp.trans (by decide))
  exact ⟨iv, out, henc, c, hrun, hc⟩

end Osol.Modes
