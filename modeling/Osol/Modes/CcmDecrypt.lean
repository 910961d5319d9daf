import Osol.Modes.CcmEncrypt

/-!
# CCM decryption

What a call of `ccm_mode_decrypt_contiguous_blocks` does depends on the bytes accepted so far
and on where the last call in the ciphertext ended: if a call ended behind the last full
block of the ciphertext, the bytes held then are decrypted but not counted.
-/

namespace Osol.Modes.Ccm

open Osol.Lib Function List

variable {E : Cipher} {c : Ctx}

/-! ## Runs -/

/-- Calls one after the other, whatever they return. -/
def decryptCalls (E : Cipher) (c : Ctx) : List (List Byte) → List Rv × Ctx
  | [] => ([], c)
  | data :: rest =>
    let r := ccmModeDecryptContiguousBlocks E c data
    let s := decryptCalls E r.2 rest
    (r.1 :: s.1, s.2)

/-- The data of the calls that succeeded. -/
def accepted (pieces : List (List Byte)) (rvs : List Rv) : List Byte :=
  (zipWith (fun data rv => if rv = .success then data else []) pieces rvs).flatten

/-! ## Blocks -/

/-- A round of the loop over the blocks. -/
def decStep (E : Cipher) (c : Ctx) (block : List Byte) : Ctx :=
  { c with
    cb := c.next c.cb
    ptBuf := putBytes c.ptBuf c.processedDataLen (xorBytes block (E.enc c.cb.bytes))
    processedDataLen := c.processedDataLen + 16
    remainder := [] }

/-- The full blocks of `l` decrypted and the rest of it held. -/
def Ctx.advance (c : Ctx) (E : Cipher) (l : List Byte) : Ctx :=
  { c with
    cb := c.next^[l.length / 16] c.cb
    ptBuf := putBytes c.ptBuf c.processedDataLen
      (xorStream E c.next c.cb (l.take (l.length / 16 * 16)))
    processedDataLen := c.processedDataLen + l.length / 16 * 16
    remainder := l.drop (l.length / 16 * 16) }

/-- All of `l` decrypted, and all but `lost` bytes counted. -/
def Ctx.finish (c : Ctx) (E : Cipher) (l : List Byte) (lost : ℕ) : Ctx :=
  { c with
    cb := c.next^[l.length / 16] c.cb
    ptBuf := putBytes c.ptBuf c.processedDataLen (xorStream E c.next c.cb l)
    processedDataLen := c.processedDataLen + l.length - lost
    remainder := [] }

theorem advance_short {l : List Byte} (h : l.length < 16) : c.advance E l = { c with remainder := l } := by
  have hdiv : l.length / 16 = 0 := Nat.div_eq_of_lt h
  simp only [Ctx.advance, hdiv, Nat.zero_mul, iterate_zero, id_eq, take_zero, drop_zero, Nat.add_zero]
  congr 1
  exact putBytes_nil _ _

theorem finish_short {l : List Byte} (h : l.length < 16) (lost : ℕ) : c.finish E l lost = { c with
      ptBuf := putBytes c.ptBuf c.processedDataLen (xorBytes l (E.enc c.cb.bytes))
      processedDataLen := c.processedDataLen + l.length - lost
      remainder := [] } := by
  have hdiv : l.length / 16 = 0 := Nat.div_eq_of_lt h
  simp only [Ctx.finish, hdiv, iterate_zero, id_eq, xorStream_short E _ _ h.le]

section Block

variable {b : List Byte} (hb : b.length = 16) (l : List Byte)

include hb

theorem div_block : (b ++ l).length / 16 = l.length / 16 + 1 := by
  rw [length_append, hb, Nat.add_div_left _ (by decide)]

theorem putBytes_block (buf : Buf) (o : ℕ) (nx : Cb → Cb) (cb : Cb) :
    putBytes buf o (xorStream E nx cb (b ++ l)) =
      putBytes (putBytes buf o (xorBytes b (E.enc cb.bytes))) (o + 16)
        (xorStream E nx (nx cb) l) := by
  rw [xorStream_append E nx cb (by rw [hb]), hb, Nat.div_self (by decide), iterate_one,
    xorStream_short E nx cb hb.le, ← putBytes_append]
  rw [length_xorBytes, hb, E.length_enc, Nat.min_self]

theorem advance_block : c.advance E (b ++ l) = (decStep E c b).advance E l := by
  have htake : (b ++ l).take ((l.length / 16 + 1) * 16) = b ++ l.take (l.length / 16 * 16) := by
    rw [take_append, hb, take_of_length_le (by omega), Nat.add_mul, Nat.one_mul, Nat.add_sub_cancel]
  have hdrop : (b ++ l).drop ((l.length / 16 + 1) * 16) = l.drop (l.length / 16 * 16) := by
    rw [drop_append, hb, drop_of_length_le (by omega), Nat.add_mul, Nat.one_mul, Nat.add_sub_cancel,
      nil_append]
  simp only [Ctx.advance, div_block hb, htake, hdrop, putBytes_block hb]
  have hproc : c.processedDataLen + (l.length / 16 + 1) * 16 =
      c.processedDataLen + 16 + l.length / 16 * 16 := by omega
  rw [hproc]
  rfl

theorem finish_block (lost : ℕ) : c.finish E (b ++ l) lost = (decStep E c b).finish E l lost := by
  simp only [Ctx.finish, div_block hb, putBytes_block hb]
  have hproc : c.processedDataLen + (b ++ l).length - lost =
      c.processedDataLen + 16 + l.length - lost := by rw [length_append, hb, Nat.add_assoc]
  rw [hproc]
  rfl

end Block

theorem advance_advance (c : Ctx) (l k : List Byte) :
    (c.advance E l).advance E ((c.advance E l).remainder ++ k) = c.advance E (l ++ k) := by
  induction l using blocks_induction (n := 16) (by decide) generalizing c with
  | short l h =>
    rw [advance_short h]
    rfl
  | block b l hb ih =>
    rw [append_assoc, advance_block hb, advance_block hb]
    exact ih _

theorem finish_advance (c : Ctx) (l k : List Byte) (lost : ℕ) :
    (c.advance E l).finish E ((c.advance E l).remainder ++ k) lost = c.finish E (l ++ k) lost := by
  induction l using blocks_induction (n := 16) (by decide) generalizing c with
  | short l h =>
    rw [advance_short h]
    rfl
  | block b l hb ih =>
    rw [append_assoc, advance_block hb, finish_block hb]
    exact ih _

variable {data : List Byte}

theorem decryptLoop_eq {fuel : ℕ} {rem : ℕ} {data : List Byte} (hrem : c.remainder.length < 16)
    (hdata : 16 ≤ c.remainder.length + data.length) (hfuel : data.length ≤ fuel)
    (hle : data.length ≤ rem) :
    decryptLoop E fuel c rem data =
    (.success, if 0 < c.processedMacLen then c.finish E (c.remainder ++ data) 0
        else c.advance E (c.remainder ++ data)) := by
  induction fuel generalizing c rem data with
  | zero => omega
  | succ fuel ih =>
    have hblock : (c.remainder ++ data.take (16 - c.remainder.length)).length = 16 := by
      rw [length_append, length_take]
      omega
    have hsplit : c.remainder ++ data = (c.remainder ++ data.take (16 - c.remainder.length)) ++
        data.drop (16 - c.remainder.length) := by
      rw [append_assoc, take_append_drop]
    have hlen : (data.drop (16 - c.remainder.length)).length =
      data.length - (16 - c.remainder.length) := length_drop
    rw [hsplit, advance_block hblock, finish_block hblock, decryptLoop]
    dsimp only
    rw [if_neg (by omega)]
    generalize data.drop (16 - c.remainder.length) = tail at hlen ⊢
    generalize c.remainder ++ data.take (16 - c.remainder.length) = b at hblock ⊢
    split
    · next h =>
      rw [advance_short h.2, finish_short h.2]
      split <;> rfl
    split
    · next h =>
      have hnil := eq_nil_of_length_eq_zero h
      subst hnil
      have hput := putBytes_nil (decStep E c b).ptBuf (decStep E c b).processedDataLen
      rw [advance_short (by simp), finish_short (by simp)]
      simp only [xorBytes, zipWith_nil_left, hput]
      split <;> rfl
    · have hnil : (decStep E c b).remainder = [] := rfl
      have hstep := @ih (decStep E c b) tail.length tail (by rw [hnil]; decide)
        (by rw [hnil, length_nil]; omega) (by omega) le_rfl
      exact hstep

/-! ## Calls -/

/-- `lost` for a message whose last call in the ciphertext ended after `x` bytes. -/
def lost (dataLen x : ℕ) : ℕ := if x / 16 = dataLen / 16 then x % 16 else 0

/-- The context after the bytes of `s` have been accepted. The second number tells how many
there were at the end of the last call that ended in the ciphertext. -/
def Ctx.after (c : Ctx) (E : Cipher) (s : List Byte × ℕ) : Ctx :=
  if s.1.length ≤ c.dataLen then c.advance E s.1
  else { c.finish E (s.1.take c.dataLen) (lost c.dataLen s.2) with
    processedMacLen := s.1.length - c.dataLen
    macInput := putBytes c.macInput 0 (s.1.drop c.dataLen) }

def accept (dataLen limit : ℕ) (s : List Byte × ℕ) (data : List Byte) : List Byte × ℕ :=
  if limit < s.1.length + data.length then s
  else (s.1 ++ data, if s.1.length + data.length ≤ dataLen then s.1.length + data.length else s.2)

/-- What holds of the bytes accepted. -/
structure Reached (dataLen : ℕ) (s : List Byte × ℕ) : Prop where
  le : s.2 ≤ dataLen
  eq : s.1.length ≤ dataLen → s.2 = s.1.length

variable {s : List Byte × ℕ}

theorem Reached.accept {dataLen : ℕ} (h : Reached dataLen s) (limit : ℕ)
    (data : List Byte) : Reached dataLen (accept dataLen limit s data) := by
  unfold Ccm.accept
  split
  · exact h
  constructor
  · simp only
    split
    · assumption
    · exact h.le
  · intro hle
    rw [length_append] at hle
    simp only [if_pos hle, length_append]

theorem decrypt_reading {X : List Byte} (hc : Fresh c) (hX : X.length ≤ c.dataLen) :
    ccmModeDecryptContiguousBlocks E (c.advance E X) data =
      if c.dataLen + c.macLen < X.length + data.length then (.encryptedDataLenRange, c.advance E X)
      else (.success, c.after E (accept c.dataLen (c.dataLen + c.macLen) (X, X.length) data)) := by
  have hmac : (c.advance E X).processedMacLen = 0 := hc.processedMac
  have hdata : (c.advance E X).dataLen = c.dataLen := rfl
  have hmacLen : (c.advance E X).macLen = c.macLen := rfl
  have hproc : (c.advance E X).processedDataLen = X.length / 16 * 16 := by
    rw [Ctx.advance, hc.processed, Nat.zero_add]
  have hrem : (c.advance E X).remainder.length = X.length % 16 := by
    rw [Ctx.advance, length_drop]
    omega
  have hnext := advance_advance (E := E) c X data
  have hfinish := finish_advance (E := E) c X (data.take (c.dataLen - X.length))
  unfold ccmModeDecryptContiguousBlocks
  simp only [hmac, hdata, hmacLen]
  rw [if_neg (by omega)]
  by_cases hlimit : c.dataLen + c.macLen < X.length + data.length
  · rw [if_pos hlimit, if_pos (by omega)]
  rw [if_neg hlimit, if_neg (by omega), accept, if_neg hlimit]
  unfold Ctx.after
  simp only [length_append]
  by_cases hcross : c.dataLen < X.length + data.length
  · -- the call reaches the MAC
    have hpart : c.dataLen - (c.advance E X).processedDataLen - (c.advance E X).remainder.length =
        c.dataLen - X.length := by omega
    have htake : (X ++ data).take c.dataLen = X ++ data.take (c.dataLen - X.length) := by
      rw [take_append, take_of_length_le hX]
    have hdrop : (X ++ data).drop c.dataLen = data.drop (c.dataLen - X.length) := by
      rw [drop_append, drop_of_length_le hX, nil_append]
    have hcount : X.length + data.length - c.dataLen = data.length - (c.dataLen - X.length) := by omega
    have hlen : (data.take (c.dataLen - X.length)).length = c.dataLen - X.length := by
      rw [length_take]
      omega
    have hbehind : ¬ X.length + data.length ≤ c.dataLen := by omega
    simp only [if_neg hbehind]
    rw [if_pos (by omega), hpart, htake, hdrop, hcount]
    by_cases hshort : c.dataLen - X.length + (c.advance E X).remainder.length < 16
    · have hlost : lost c.dataLen X.length = (c.advance E X).remainder.length := by
        rw [lost, if_pos (by omega), hrem]
      have hcounted : (c.advance E X).processedDataLen +
          ((c.advance E X).remainder ++ data.take (c.dataLen - X.length)).length -
            (c.advance E X).remainder.length =
          (c.advance E X).processedDataLen + (c.dataLen - X.length) := by
        rw [length_append, hlen]
        omega
      rw [if_pos hshort, ← hfinish, hlost, finish_short (by rw [length_append]; omega), hcounted]
      rfl
    · have hlost : lost c.dataLen X.length = 0 := by rw [lost, if_neg (by omega)]
      rw [if_neg hshort, decryptLoop_eq (by rw [hrem]; omega) (by simp only; omega) (by omega)
        (by omega), if_pos (by simp only; omega), ← hfinish, hlost]
      rfl
  · have hbefore : X.length + data.length ≤ c.dataLen := by omega
    simp only [if_pos hbefore]
    rw [if_neg (by omega), ← hnext]
    by_cases hshort : data.length + (c.advance E X).remainder.length < 16
    · rw [if_pos hshort, advance_short (c := c.advance E X) (by rw [length_append]; omega), hmac]
      rfl
    · rw [if_neg hshort, decryptLoop_eq (by rw [hrem]; omega) (by omega) le_rfl le_rfl,
        if_neg (by rw [hmac]; decide)]

theorem decrypt_finished (data : List Byte) (hs : c.dataLen < s.1.length) :
    ccmModeDecryptContiguousBlocks E (c.after E s) data =
      if c.dataLen + c.macLen < s.1.length + data.length then (.encryptedDataLenRange, c.after E s)
      else (.success, c.after E (accept c.dataLen (c.dataLen + c.macLen) s data)) := by
  have hmac : (c.after E s).processedMacLen = s.1.length - c.dataLen := by rw [Ctx.after, if_neg (by omega)]
  have hmacLen : (c.after E s).macLen = c.macLen := by
    rw [Ctx.after, if_neg (by omega)]
    rfl
  unfold ccmModeDecryptContiguousBlocks
  rw [if_pos (by omega), hmac, hmacLen]
  by_cases hlimit : c.dataLen + c.macLen < s.1.length + data.length
  · rw [if_pos hlimit, if_pos (by omega)]
  rw [if_neg hlimit, if_neg (by omega), accept, if_neg hlimit, Ctx.after, Ctx.after,
    if_neg (by omega), if_neg (by rw [length_append]; omega), if_neg (by omega)]
  have htake : (s.1 ++ data).take c.dataLen = s.1.take c.dataLen := by
    rw [take_append_of_le_length (by omega)]
  have hdrop : (s.1 ++ data).drop c.dataLen = s.1.drop c.dataLen ++ data := by
    rw [drop_append_of_le_length (by omega)]
  have hcount : (s.1 ++ data).length - c.dataLen = s.1.length - c.dataLen + data.length := by
    rw [length_append]
    omega
  have hput := putBytes_append c.macInput 0 (s.1.drop c.dataLen) data
  rw [length_drop, Nat.zero_add] at hput
  rw [htake, hdrop, hcount, ← hput]
  rfl

theorem decrypt_after (hc : Fresh c) (hs : Reached c.dataLen s) (data : List Byte) :
    ccmModeDecryptContiguousBlocks E (c.after E s) data =
      (if c.dataLen + c.macLen < s.1.length + data.length then .encryptedDataLenRange else .success,
        c.after E (accept c.dataLen (c.dataLen + c.macLen) s data)) := by
  rcases Nat.lt_or_ge c.dataLen s.1.length with hlt | hle
  · rw [decrypt_finished data hlt]
    split
    · next h => rw [accept, if_pos h]
    · rfl
  have hstate : c.after E s = c.advance E s.1 := if_pos hle
  have heq : s = (s.1, s.1.length) := Prod.ext rfl (hs.eq hle)
  rw [hstate, decrypt_reading hc hle, ← heq]
  split
  · next h => rw [accept, if_pos h, hstate]
  · rfl

/-! ## Whole runs -/

theorem decryptCalls_eq (hc : Fresh c) (hs : Reached c.dataLen s) (pieces : List (List Byte)) :
    (decryptCalls E (c.after E s) pieces).2 = c.after E
    (pieces.foldl (accept c.dataLen (c.dataLen + c.macLen)) s) ∧
      (pieces.foldl (accept c.dataLen (c.dataLen + c.macLen)) s).1 =
        s.1 ++ accepted pieces (decryptCalls E (c.after E s) pieces).1 ∧
      (s.1.length + pieces.flatten.length ≤ c.dataLen + c.macLen →
        ∀ rv ∈ (decryptCalls E (c.after E s) pieces).1, rv = .success) := by
  induction pieces generalizing s with
  | nil => exact ⟨rfl, (append_nil _).symm, fun _ rv h => by cases h⟩
  | cons data rest ih =>
    obtain ⟨hctx, hbytes, hall⟩ := ih (hs.accept (c.dataLen + c.macLen) data)
    rw [decryptCalls, decrypt_after hc hs data]
    refine ⟨hctx, ?_, fun hroom rv hrv => ?_⟩
    · rw [foldl_cons, hbytes]
      unfold accept accepted
      by_cases hlimit : c.dataLen + c.macLen < s.1.length + data.length
      · simp [if_pos hlimit]
      · simp [if_neg hlimit]
    have hlimit : ¬ c.dataLen + c.macLen < s.1.length + data.length := by
      rw [flatten_cons, length_append] at hroom
      omega
    rw [mem_cons] at hrv
    rcases hrv with rfl | hrv
    · rw [if_neg hlimit]
    · refine hall ?_ rv hrv
      rw [accept, if_neg hlimit, length_append]
      rw [flatten_cons, length_append] at hroom
      omega

end Osol.Modes.Ccm
