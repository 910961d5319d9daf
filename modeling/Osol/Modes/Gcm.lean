import Osol.Lib.Checked
import Osol.Modes.CcmEncrypt

/-!
# GCM

`gcm.c`. The context is kept without `gcm_remainder`, which the functions take and give back
beside it. `GHASH` chains like the CBC-MAC of CCM, with the multiplication by `H` in the place
of the block function. Decryption gathers the message in `gcm_pt_buf`; `gcm_decrypt_final` gives
`none` if it touches memory behind that buffer. Allocations succeed.
-/

namespace Osol.Modes.Gcm

open Osol.Lib List Function
open Ccm (Mac pad cbOfBytes intLen cryptoPutOutputData)

/-! ## The hash -/

/-- A round of `gcm_mul`: `z`, `v` and the bits of `x` that are left. -/
def gcmMulStep (s : Cb × Cb × BitVec 64) : Cb × Cb × BitVec 64 :=
  let z := s.1
  let v := s.2.1
  (if s.2.2.msb then ⟨z.upper ^^^ v.upper, z.lower ^^^ v.lower⟩ else z,
    ⟨if v.lower.getLsbD 0 then v.upper >>> 1 ^^^ 0xe100000000000000 else v.upper >>> 1,
      v.upper <<< 63 ||| v.lower >>> 1⟩,
    s.2.2 <<< 1)

def gcmMul (x y : List Byte) : List Byte :=
  let r := gcmMulStep^[64] (⟨0, 0⟩, cbOfBytes y, (cbOfBytes x).upper)
  (gcmMulStep^[64] (r.1, r.2.1, (cbOfBytes x).lower)).1.bytes

def mulBy (h : List Byte) : Cipher := ⟨(gcmMul · h), fun _ => Cb.length_bytes _⟩

/-! ## Contexts -/

structure Ctx where
  ghash : Mac
  h : List Byte
  j0 : List Byte
  cb : Cb
  tagLen : ℕ
  /-- The length that `gcm_len_a_len_c[0]` has in bits. -/
  aadLen : ℕ
  processedDataLen : ℕ
  ptBuf : Buf
  ptBufLen : ℕ

/-- A counter block with the 32 bits of its counter incremented. -/
def next (cb : Cb) : Cb := ⟨cb.upper, bump (lowMask 32) cb.lower⟩

def Ctx.hash (c : Ctx) (block : List Byte) : Ctx := { c with ghash := c.ghash.feed (mulBy c.h) block }

/-- `gcm_len_a_len_c`: two lengths in bits. -/
def lenBlock (a c : ℕ) : List Byte := (toBytes 8 (8 * a)).reverse ++ (toBytes 8 (8 * c)).reverse

def formatJ0 (h iv : List Byte) : List Byte :=
  if iv.length = 12 then iv ++ [0, 0, 0, 1]
  else ((Mac.feedAll (mulBy h) ⟨replicate 16 0, []⟩ iv).feed (mulBy h) (lenBlock 0 iv.length)).buf

/-- `gcm_init_ctx` with `gcm_validate_args` and `gcm_init`, on a context of zeroes. -/
def gcmInitCtx (E : Cipher) (tagBits : ℕ) (iv aad : List Byte) : Except Rv Ctx :=
  if tagBits ∉ [32, 64, 96, 104, 112, 120, 128] then .error .mechanismParamInvalid
  else if iv.length = 0 then .error .mechanismParamInvalid
  else
    let h := E.enc (replicate 16 0)
    let zero : Mac := ⟨replicate 16 0, []⟩
    .ok {
      ghash := if aad = [] then zero.feed (mulBy h) (replicate 16 0) else zero.feedAll (mulBy h) aad
      h := h
      j0 := formatJ0 h iv
      cb := cbOfBytes (formatJ0 h iv)
      tagLen := tagBits >>> 3
      aadLen := aad.length
      processedDataLen := 0
      ptBuf := fun _ => 0
      ptBufLen := 0 }

section Functions

variable (E : Cipher)

def Ctx.tag (c : Ctx) (len : ℕ) : List Byte :=
  (xorBytes (E.enc c.j0) (c.hash (lenBlock c.aadLen len)).ghash.buf).take c.tagLen

/-! ## Encryption -/

/-- A round of the loop of `gcm_mode_encrypt_contiguous_blocks`. -/
def encStep (c : Ctx) (block : List Byte) : Ctx × List Byte :=
  let out := xorBytes block (E.enc (next c.cb).bytes)
  ({ c.hash out with cb := next c.cb, processedDataLen := c.processedDataLen + 16 }, out)

def gcmModeEncryptContiguousBlocks (c : Ctx) (remainder data : List Byte) :
    Rv × Ctx × List Byte × List Byte :=
  contiguousBlocks .dataLenRange (encStep E) c remainder data

def gcmEncryptFinal (c : Ctx) (remainder : List Byte) (cdLength : ℕ) : Rv × List Byte :=
  if cdLength < remainder.length + c.tagLen then (.dataLenRange, [])
  else
    let out := xorBytes remainder (E.enc (next c.cb).bytes)
    let c := if 0 < remainder.length then c.hash (pad out) else c
    (.success, out ++ c.tag E (c.processedDataLen + remainder.length))

/-! ## Decryption -/

def gcmModeDecryptContiguousBlocks (c : Ctx) (data : List Byte) : Ctx :=
  { c with
    ptBuf := putBytes c.ptBuf c.processedDataLen data
    ptBufLen := c.ptBufLen + data.length
    processedDataLen := c.processedDataLen + data.length }

def gcmDecryptIncompleteBlock (c : Ctx) (blockp remainder index : ℕ) : Option Ctx :=
  if c.ptBufLen < blockp + remainder ∨ c.ptBufLen < index + remainder then none
  else
    let data := bytesAt c.ptBuf blockp remainder
    some { c.hash (pad data) with
      cb := next c.cb
      ptBuf := putBytes c.ptBuf index (xorBytes data (E.enc (next c.cb).bytes)) }

/-- The loop of `gcm_decrypt_final`. `processed` is as far as `blockp`, but an `int`. -/
def decryptLoop : ℕ → Ctx → ℕ → ℕ → Option Ctx
  | 0, _, _, _ => none
  | fuel + 1, c, blockp, remainder =>
    if remainder = 0 then some c
    else if c.ptBufLen < blockp + 16 then none
    else
      let block := bytesAt c.ptBuf blockp 16
      let c := { c.hash block with
        cb := next c.cb
        ptBuf := putBytes c.ptBuf blockp (xorBytes block (E.enc (next c.cb).bytes)) }
      let blockp := blockp + 16
      let remainder := usub remainder 16
      if 0 < remainder ∧ remainder < 16 then
        gcmDecryptIncompleteBlock E c blockp remainder (intLen blockp)
      else decryptLoop fuel c blockp remainder

def gcmDecryptFinal (c : Ctx) (iovLen : ℕ) : Option (Rv × List Byte) :=
  let ptLen := usub c.processedDataLen c.tagLen
  (decryptLoop E (c.ptBufLen + 1) c 0 ptLen).map fun c =>
    if bytesAt c.ptBuf ptLen c.tagLen ≠ c.tag E ptLen then (.invalidMac, [])
    else cryptoPutOutputData c.ptBuf iovLen ptLen

/-! ## Messages -/

def encryptMessage (tagBits : ℕ) (iv aad : List Byte) (pieces : List (List Byte)) (room : ℕ) :
    Except Rv (List Byte) :=
  match gcmInitCtx E tagBits iv aad with
  | .error rv => .error rv
  | .ok c =>
    match contiguousRun .dataLenRange (encStep E) c [] pieces with
    | (.success, c, remainder, out) =>
      match gcmEncryptFinal E c remainder room with
      | (.success, last) => .ok (out ++ last)
      | (rv, _) => .error rv
    | (rv, _) => .error rv

def decryptMessage (tagBits : ℕ) (iv aad : List Byte) (pieces : List (List Byte)) (room : ℕ) :
    Option (Rv × List Byte) :=
  match gcmInitCtx E tagBits iv aad with
  | .error rv => some (rv, [])
  | .ok c => gcmDecryptFinal E (pieces.foldl gcmModeDecryptContiguousBlocks c) room

end Functions

/-- Plaintexts of this length come back as they were, however plaintext and message are cut. -/
def RoundTrip (tagBits dataSize : ℕ) : Prop :=
  ∀ (E : Cipher) (iv aad : List Byte) (plain : List (List Byte)) (room : ℕ), iv ≠ [] →
    plain.flatten.length = dataSize → dataSize + tagBits >>> 3 ≤ room →
    ∃ message, encryptMessage E tagBits iv aad plain room = .ok message ∧
      ∀ pieces : List (List Byte), pieces.flatten = message →
        decryptMessage E tagBits iv aad pieces room = some (.success, plain.flatten)

/-! ## Encryption -/

variable {E : Cipher} {c : Ctx}

def Ctx.textTag (c : Ctx) (E : Cipher) (text : List Byte) : List Byte :=
  ({ c with ghash := c.ghash.feedAll (mulBy c.h) text } : Ctx).tag E text.length

theorem tag_eq_textTag {d : Ctx} {x text : List Byte}
    (hg : d.ghash.feedAll (mulBy d.h) x = c.ghash.feedAll (mulBy c.h) text) (hh : d.h = c.h)
    (hj : d.j0 = c.j0) (ha : d.aadLen = c.aadLen) (ht : d.tagLen = c.tagLen) :
    ({ d with ghash := d.ghash.feedAll (mulBy d.h) x } : Ctx).tag E text.length = c.textTag E text := by
  unfold Ctx.textTag Ctx.tag Ctx.hash
  rw [hg, hh, hj, ha, ht]

theorem runBlocks_encStep (c : Ctx) (l : List Byte) : let r := runBlocks 16 (encStep E) c l
    r.2.1.length = l.length % 16 ∧ r.1.h = c.h ∧ r.1.j0 = c.j0 ∧ r.1.aadLen = c.aadLen ∧
      r.1.tagLen = c.tagLen ∧ r.1.processedDataLen + r.2.1.length = c.processedDataLen + l.length ∧
      r.2.2 ++ xorBytes r.2.1 (E.enc (next r.1.cb).bytes) = xorStream E next (next c.cb) l ∧
      r.1.ghash.feedAll (mulBy c.h) (xorBytes r.2.1 (E.enc (next r.1.cb).bytes)) =
        c.ghash.feedAll (mulBy c.h) (xorStream E next (next c.cb) l) := by
  induction l using blocks_induction (n := 16) (by decide) generalizing c with
  | short l h =>
    rw [runBlocks_of_lt h, xorStream_short E _ _ h.le]
    exact ⟨(Nat.mod_eq_of_lt h).symm, rfl, rfl, rfl, rfl, rfl, rfl, rfl⟩
  | block b l hb ih =>
    have hstep := ih (encStep E c b).1
    have hout : (xorBytes b (E.enc (next c.cb).bytes)).length = 16 := by simp [hb]
    have hstream : xorStream E next (next c.cb) (b ++ l) =
        xorBytes b (E.enc (next c.cb).bytes) ++ xorStream E next (next (next c.cb)) l := by
      rw [xorStream_append E _ _ (by rw [hb]), hb, Nat.div_self (by decide), iterate_one,
        xorStream_short E _ _ hb.le]
    rw [runBlocks_block (by decide) hb, hstream, Ccm.Mac.feedAll_block _ hout, length_append, hb,
      Nat.add_mod_left]
    obtain ⟨h1, h2, h3, h4, h5, h6, h7, h8⟩ := hstep
    refine ⟨h1, h2, h3, h4, h5, ?_, ?_, h8⟩
    · rw [h6, show (encStep E c b).1.processedDataLen = c.processedDataLen + 16 from rfl, Nat.add_assoc]
    · simp only [append_assoc]
      rw [h7]
      rfl

theorem encryptMessage_eq {tagBits room : ℕ} {iv aad : List Byte} {pieces : List (List Byte)}
    (hc : gcmInitCtx E tagBits iv aad = .ok c) (hzero : c.processedDataLen = 0)
    (hroom : pieces.flatten.length + c.tagLen ≤ room) :
    encryptMessage E tagBits iv aad pieces room = .ok (xorStream E next (next c.cb) pieces.flatten ++
        c.textTag E (xorStream E next (next c.cb) pieces.flatten)) := by
  have hrun := runBlocks_encStep (E := E) c pieces.flatten
  unfold encryptMessage
  rw [hc]
  simp only [contiguousRun_eq _ (encStep E) c (by decide : ([] : List Byte).length < 16) pieces, nil_append]
  generalize runBlocks 16 (encStep E) c pieces.flatten = r at hrun ⊢
  obtain ⟨d, rem, out⟩ := r
  obtain ⟨hlen, hh, hj, ha, ht, hproc, hout, hghash⟩ := hrun
  simp only at hlen hh hj ha ht hproc hout hghash ⊢
  have hx : (xorBytes rem (E.enc (next d.cb).bytes)).length = rem.length := by
    rw [length_xorBytes, E.length_enc]
    omega
  rw [gcmEncryptFinal, if_neg (by omega)]
  generalize xorBytes rem (E.enc (next d.cb).bytes) = x at hghash hout hx ⊢
  have hlast : (if 0 < rem.length then d.hash (pad x) else d) =
      { d with ghash := d.ghash.feedAll (mulBy d.h) x } := by
    rw [Ccm.Mac.feedAll]
    by_cases h0 : x = []
    · rw [if_neg (by rw [← hx, h0]; decide), if_pos h0]
    · rw [if_pos (hx ▸ length_pos_of_ne_nil h0), if_neg h0, if_pos (by omega)]
      rfl
  have htag : ({ d with ghash := d.ghash.feedAll (mulBy d.h) x } : Ctx).tag E
      (d.processedDataLen + rem.length) = c.textTag E (xorStream E next (next c.cb) pieces.flatten) := by
    rw [hproc, hzero, Nat.zero_add, ← length_xorStream E next (next c.cb) pieces.flatten]
    exact tag_eq_textTag (by rw [hh, hghash]) hh hj ha ht
  simp only [hlast, htag]
  rw [← append_assoc, hout]

/-! ## Decryption -/

theorem foldl_decrypt (c : Ctx) (pieces : List (List Byte)) :
    pieces.foldl gcmModeDecryptContiguousBlocks c = { c with
        ptBuf := putBytes c.ptBuf c.processedDataLen pieces.flatten
        ptBufLen := c.ptBufLen + pieces.flatten.length
        processedDataLen := c.processedDataLen + pieces.flatten.length } := by
  induction pieces generalizing c with
  | nil => simp
  | cons data rest ih =>
    rw [foldl_cons, ih, flatten_cons, length_append, ← putBytes_append]
    simp only [gcmModeDecryptContiguousBlocks, Nat.add_assoc]

theorem decryptLoop_eq {fuel o r : ℕ} (hr : r = 0 ∨ 16 ≤ r) (hlen : o + r ≤ c.ptBufLen)
    (hmax : r < 2 ^ 64) (hfuel : r < fuel) (hint : intLen (o + r / 16 * 16) = o + r / 16 * 16) :
    ∃ cb, decryptLoop E fuel c o r = some { c with
      cb := cb
      ghash := c.ghash.feedAll (mulBy c.h) (bytesAt c.ptBuf o r)
      ptBuf := putBytes c.ptBuf o (xorStream E next (next c.cb) (bytesAt c.ptBuf o r)) } := by
  induction fuel generalizing c o r with
  | zero => omega
  | succ fuel ih =>
    rw [decryptLoop]
    by_cases h0 : r = 0
    · refine ⟨c.cb, ?_⟩
      subst h0
      rw [if_pos rfl, show bytesAt c.ptBuf o 0 = [] from rfl, Ccm.Mac.feedAll, if_pos rfl,
        xorStream_short E _ _ (by decide)]
      simp [xorBytes]
    have hblock : (bytesAt c.ptBuf o 16).length = 16 := length_bytesAt _ _ _
    have hsplit := bytesAt_add c.ptBuf o 16 (r - 16)
    rw [show 16 + (r - 16) = r by omega] at hsplit
    rw [if_neg h0, if_neg (by omega), usub_of_le (by omega) hmax, hsplit]
    obtain ⟨hb, hbuf⟩ : (xorBytes (bytesAt c.ptBuf o 16) (E.enc (next c.cb).bytes)).length = 16 ∧
        ∀ n, bytesAt (putBytes c.ptBuf o (xorBytes (bytesAt c.ptBuf o 16) (E.enc (next c.cb).bytes)))
          (o + 16) n = bytesAt c.ptBuf (o + 16) n := by
      refine ⟨by simp, fun n => bytesAt_congr fun x hx _ => if_neg ?_⟩
      rw [length_xorBytes, hblock, E.length_enc]
      omega
    have hstream : xorStream E next (next c.cb)
      (bytesAt c.ptBuf o 16 ++ bytesAt c.ptBuf (o + 16) (r - 16)) =
        xorBytes (bytesAt c.ptBuf o 16) (E.enc (next c.cb).bytes) ++
          xorStream E next (next (next c.cb)) (bytesAt c.ptBuf (o + 16) (r - 16)) := by
      rw [xorStream_append E _ _ (by rw [hblock]), hblock, Nat.div_self (by decide),
        iterate_one, xorStream_short E _ _ hblock.le]
    have hput := putBytes_append c.ptBuf o (xorBytes (bytesAt c.ptBuf o 16) (E.enc (next c.cb).bytes))
    rw [hstream, Ccm.Mac.feedAll_block _ hblock, ← hput, hb]
    by_cases hshort : 0 < r - 16 ∧ r - 16 < 16
    · have hidx : intLen (o + 16) = o + 16 := by rwa [show r / 16 = 1 by omega] at hint
      have hrest : (bytesAt c.ptBuf (o + 16) (r - 16)).length < 16 := by
        rw [length_bytesAt]
        exact hshort.2
      refine ⟨next (next c.cb), ?_⟩
      rw [if_pos hshort, hidx, gcmDecryptIncompleteBlock, if_neg (by simp only [Ctx.hash]; omega)]
      simp only [Ctx.hash, hbuf]
      rw [Ccm.Mac.feedAll, if_neg (by rw [← length_eq_zero_iff, length_bytesAt]; omega),
        if_pos hrest, xorStream_short E _ _ hrest.le]
    · rw [if_neg hshort]
      obtain ⟨cb, hcb⟩ := @ih { c.hash (bytesAt c.ptBuf o 16) with
        cb := next c.cb
        ptBuf := putBytes c.ptBuf o (xorBytes (bytesAt c.ptBuf o 16) (E.enc (next c.cb).bytes)) }
        (o + 16) (r - 16) (by omega) (by simp only [Ctx.hash]; omega) (by omega) (by omega)
        (by rw [show o + 16 + (r - 16) / 16 * 16 = o + r / 16 * 16 by omega]; exact hint)
      refine ⟨cb, hcb.trans ?_⟩
      simp only [Ctx.hash, hbuf]

theorem decryptLoop_short {r : ℕ} (h0 : 0 < r) (hr : r < 16) (hbuf : c.ptBufLen < 32) (fuel : ℕ) :
    decryptLoop E fuel c 0 r = none := by
  cases fuel with
  | zero => rfl
  | succ fuel =>
    have hwrap : 16 ≤ usub r 16 := by
      unfold usub
      omega
    rw [decryptLoop, if_neg (by omega)]
    split
    · rfl
    rw [if_neg (by omega)]
    cases fuel with
    | zero => rfl
    | succ fuel => rwa [decryptLoop, if_neg (by omega), if_pos]

/-! ## The round trip -/

theorem gcmInitCtx_ok {tagBits : ℕ} {iv : List Byte} (hv : tagBits ∈ [32, 64, 96, 104, 112, 120, 128])
    (hiv : iv ≠ []) (E : Cipher) (aad : List Byte) :
    ∃ c, gcmInitCtx E tagBits iv aad = .ok c ∧ c.processedDataLen = 0 ∧ c.ptBufLen = 0 ∧
      c.tagLen = tagBits >>> 3 ∧ c.tagLen ≤ 16 := by
  have hlen : tagBits >>> 3 ≤ 16 := by fin_cases hv <;> decide
  rw [gcmInitCtx, if_neg (not_not.2 hv), if_neg (fun h => hiv (length_eq_zero_iff.1 h))]
  exact ⟨_, rfl, rfl, rfl, rfl, hlen⟩

theorem length_textTag (ht : c.tagLen ≤ 16) (text : List Byte) : (c.textTag E text).length = c.tagLen := by
  simp [Ctx.textTag, Ctx.tag, Ctx.hash, Mac.feed, ht]

theorem gcmDecryptFinal_eq {text : List Byte} {iovLen : ℕ} (ht : c.tagLen ≤ 16)
    (hsize : text.length + c.tagLen < 2 ^ 64) (hr : text.length = 0 ∨ 16 ≤ text.length)
    (hint : intLen text.length = text.length) (hroom : text.length ≤ iovLen) :
    gcmDecryptFinal E { c with
        ptBuf := putBytes c.ptBuf 0 (text ++ c.textTag E text)
        ptBufLen := text.length + c.tagLen
        processedDataLen := text.length + c.tagLen } iovLen =
      some (.success, xorStream E next (next c.cb) text) := by
  have htag := length_textTag (E := E) ht text
  have hbytes : bytesAt (putBytes c.ptBuf 0 (text ++ c.textTag E text)) 0 text.length = text := by
    rw [bytesAt_putBytes _ _ (by simp), take_left]
  have hblocks : intLen (0 + text.length / 16 * 16) = 0 + text.length / 16 * 16 := by
    unfold intLen at hint ⊢
    split_ifs at hint ⊢ <;> omega
  obtain ⟨cb, hloop⟩ := @decryptLoop_eq E { c with
    ptBuf := putBytes c.ptBuf 0 (text ++ c.textTag E text)
    ptBufLen := text.length + c.tagLen
    processedDataLen := text.length + c.tagLen } (text.length + c.tagLen + 1) 0 text.length hr
    (by simp only; omega) (by omega) (by omega) hblocks
  rw [gcmDecryptFinal]
  rw [usub_of_le (Nat.le_add_left _ _) hsize, Nat.add_sub_cancel, hloop, hbytes, Option.map_some]
  have hrest : bytesAt (putBytes (putBytes c.ptBuf 0 (text ++ c.textTag E text)) 0
      (xorStream E next (next c.cb) text)) text.length c.tagLen = c.textTag E text := by
    rw [← putBytes_append, ← htag, Nat.zero_add]
    refine (bytesAt_congr fun x hx _ => ?_).trans
      ((bytesAt_putBytes (putBytes c.ptBuf 0 text) _ le_rfl).trans take_length)
    exact if_neg (by rw [length_xorStream]; omega)
  rw [if_neg (not_not.2 (hrest.trans (tag_eq_textTag (d := { c with
    cb := cb
    ptBuf := putBytes (putBytes c.ptBuf 0 (text ++ c.textTag E text)) 0 (xorStream E next (next c.cb) text)
    ptBufLen := text.length + c.tagLen
    processedDataLen := text.length + c.tagLen }) rfl rfl rfl rfl rfl).symm)), cryptoPutOutputData, hint,
    if_neg (by omega), bytesAt_putBytes _ _ (by simp), take_of_length_le (by simp)]

theorem length_gcmDecryptFinal {iovLen : ℕ} {out : List Byte}
    (h : gcmDecryptFinal E c iovLen = some (.success, out)) :
    out.length = intLen (usub c.processedDataLen c.tagLen) := by
  obtain ⟨d, -, hd⟩ := Option.map_eq_some_iff.1 h
  unfold cryptoPutOutputData at hd
  split_ifs at hd <;> cases hd
  exact length_bytesAt _ _ _

/-- GCM gives a plaintext back if and only if it is empty, or has a full block and a length that
is an `int`. -/
theorem gcm_roundTrip_iff (tagBits dataSize : ℕ) (hv : tagBits ∈ [32, 64, 96, 104, 112, 120, 128])
    (hsize : dataSize + tagBits >>> 3 < 2 ^ 64) :
    RoundTrip tagBits dataSize ↔
      dataSize = 0 ∨ (16 ≤ dataSize ∧ intLen dataSize = dataSize) := by
  constructor
  · intro h
    obtain ⟨c, hc, hzero, hbuf, htl, ht⟩ :=
      gcmInitCtx_ok hv (by decide : ([0] : List Byte) ≠ []) counting []
    obtain ⟨message, henc, hdec⟩ := h counting [0] [] [replicate dataSize 0] (dataSize + tagBits >>> 3)
      (by decide) (by simp) le_rfl
    have hlen : ([replicate dataSize 0] : List (List Byte)).flatten.length = dataSize := by simp
    rw [encryptMessage_eq hc hzero (by rw [hlen, htl])] at henc
    have hm : message.length = dataSize + c.tagLen := by
      rw [← Except.ok.inj henc, length_append, length_xorStream, length_textTag ht, hlen]
    have hd := hdec [message] (by simp)
    rw [decryptMessage, hc] at hd
    simp only [foldl_decrypt, hzero, hbuf, Nat.zero_add, flatten_cons, flatten_nil,
      append_nil, hm] at hd
    have hpt : usub (dataSize + c.tagLen) c.tagLen = dataSize := by
      rw [usub_of_le (Nat.le_add_left _ _) (by omega), Nat.add_sub_cancel]
    have hout := length_gcmDecryptFinal hd
    simp only [hpt, length_replicate] at hout
    by_contra hcon
    have hshort : dataSize < 16 := by
      by_contra hge
      exact hcon (.inr ⟨by omega, hout.symm⟩)
    rw [gcmDecryptFinal] at hd
    simp only [hpt] at hd
    rw [decryptLoop_short (by omega) hshort (by simp only; omega)] at hd
    cases hd
  · intro h E iv aad plain room hiv hplain hroom
    obtain ⟨c, hc, hzero, hbuf, htl, ht⟩ := gcmInitCtx_ok hv hiv E aad
    refine ⟨_, encryptMessage_eq hc hzero (by omega), fun pieces hp => ?_⟩
    have hlen : (xorStream E next (next c.cb) plain.flatten).length = dataSize := by
      rw [length_xorStream, hplain]
    have hgood : intLen dataSize = dataSize ∧ (dataSize = 0 ∨ 16 ≤ dataSize) := by
      rcases h with h | ⟨h16, hi⟩
      · subst h
        exact ⟨rfl, .inl rfl⟩
      · exact ⟨hi, .inr h16⟩
    rw [decryptMessage, hc]
    simp only [foldl_decrypt, hzero, hbuf, Nat.zero_add]
    rw [hp, length_append, length_textTag ht,
      gcmDecryptFinal_eq ht (by omega) (by omega) (by rw [hlen]; exact hgood.1) (by omega),
      xorStream_xorStream]

theorem gcm_roundTrip_iff_block : RoundTrip 128 16 :=
  (gcm_roundTrip_iff 128 16 (by simp) (by decide)).2 (.inr ⟨le_rfl, rfl⟩)

/-- A plaintext of one byte: the last call leaves the buffer. -/
theorem gcm_roundTrip_fails : ∃ message, encryptMessage counting 128 [0] [] [[0]] 17 = .ok message ∧
      decryptMessage counting 128 [0] [] [message] 17 = none := by
  obtain ⟨c, hc, hzero, hbuf, htl, ht⟩ :=
    gcmInitCtx_ok (by simp : 128 ∈ [32, 64, 96, 104, 112, 120, 128])
    (by decide : ([0] : List Byte) ≠ []) counting []
  refine ⟨_, encryptMessage_eq hc hzero (by rw [htl]; decide), ?_⟩
  rw [decryptMessage, hc]
  simp only [foldl_decrypt, hzero, hbuf, Nat.zero_add, flatten_cons, flatten_nil,
    append_nil, length_append, length_xorStream, length_textTag ht]
  rw [gcmDecryptFinal]
  simp only [htl]
  rfl

end Osol.Modes.Gcm
