import Osol.Modes.Basic

/-!
# CCM

`ccm.c`. The buffer of the CBC-MAC is kept with the blocks that have been fed into it. A
length is a number; `crypto_put_output_data` takes its length as an `int`. The kernel has 64
bits, and allocations succeed, except that `kmem_alloc` gives `NULL` for no bytes.
-/

namespace Osol.Modes.Ccm

open Osol.Lib List

/-! ## The CBC-MAC -/

/-- `ccm_mac_buf`, and the blocks fed into it so far. -/
structure Mac where
  buf : List Byte
  fed : List (List Byte)

/-- `xor_block(b, mac_buf); encrypt_block(mac_buf, mac_buf);` -/
def Mac.feed (E : Cipher) (m : Mac) (b : List Byte) : Mac :=
  ⟨E.enc (xorBytes b m.buf), m.fed ++ [b]⟩

/-- Bytes with zeroes up to a block. -/
def pad (b : List Byte) : List Byte := b ++ replicate (16 - b.length) 0

/-- The loops that feed all of some data, the last block padded. -/
def Mac.feedAll (E : Cipher) (m : Mac) (data : List Byte) : Mac :=
  if data = [] then m
  else if data.length < 16 then m.feed E (pad data)
  else Mac.feedAll E (m.feed E (data.take 16)) (data.drop 16)
  termination_by data.length
  decreasing_by
    rw [length_drop]
    omega

/-! ## Contexts -/

structure Ctx where
  mac : Mac
  macLen : ℕ
  dataLen : ℕ
  processedDataLen : ℕ
  processedMacLen : ℕ
  remainder : List Byte
  cb : Cb
  counterMask : BitVec 64
  /-- `ccm_mac_input_buf`. -/
  macInput : Buf
  /-- `ccm_pt_buf`. -/
  ptBuf : Buf

def Ctx.next (c : Ctx) (cb : Cb) : Cb := ⟨cb.upper, bump c.counterMask cb.lower⟩

def ccmValidateArgs (macSize nonceSize dataSize : ℕ) (isEncryptInit : Bool) : Rv :=
  if macSize < 4 ∨ 16 < macSize ∨ macSize % 2 ≠ 0 then .mechanismParamInvalid
  else if nonceSize < 7 ∨ 13 < nonceSize then .mechanismParamInvalid
  else
    let q := 15 - nonceSize
    if !isEncryptInit ∧ dataSize < macSize then .mechanismParamInvalid
    else
      let maxValue := if q < 8 then 2 ^ (q * 8) - 1 else 2 ^ 64 - 1
      if maxValue < dataSize then .mechanismParamInvalid else .success

def formatB0 (macLen : ℕ) (nonce : List Byte) (authDataSize payloadSize : ℕ) : List Byte :=
  let q := 15 - nonce.length
  let haveAdata := if 0 < authDataSize then 1 else 0
  let limit := if 8 < q then 8 else q
  BitVec.ofNat 8 (haveAdata <<< 6 ||| ((macLen - 2) / 2) <<< 3 ||| (q - 1)) :: nonce ++
    (replicate (q - limit) 0 ++ (toBytes limit payloadSize).reverse)

def cbOfBytes (l : List Byte) : Cb :=
  ⟨BitVec.ofNat 64 (ofBytes (l.take 8).reverse), BitVec.ofNat 64 (ofBytes (l.drop 8).reverse)⟩

/-- The first counter block of `ccm_format_initial_blocks`. -/
def formatCb (nonce : List Byte) : Cb :=
  let q := 15 - nonce.length
  cbOfBytes (BitVec.ofNat 8 (0x07 &&& (q - 1)) :: nonce ++ (replicate (q - 1) 0 ++ [1]))

/-- `encode_adata_len`; `unaligned` is `UNALIGNED_POINTERS_PERMITTED`. There the last case
stores the 32 bits of `htonl` in a word of 64 bits, on a machine that stores the low byte
first. -/
def encodeAdataLen (unaligned : Bool) (len : ℕ) : List Byte :=
  if len < 2 ^ 16 - 2 ^ 8 then (toBytes 2 len).reverse
  else if len < 2 ^ 31 then 0xff :: 0xfe :: (toBytes 4 len).reverse
  else if unaligned then
    0xff :: 0xff :: toBytes 8 (ofBytes (toBytes 4 (len % 2 ^ 32)).reverse)
  else 0xff :: 0xff :: (toBytes 8 len).reverse

/-- `ccm_init`, for the CBC-MAC. -/
def initMac (unaligned : Bool) (E : Cipher) (macLen : ℕ) (nonce adata : List Byte)
    (payloadSize : ℕ) : Mac :=
  let m : Mac := Mac.feed E ⟨replicate 16 0, []⟩ (formatB0 macLen nonce adata.length payloadSize)
  if adata.length = 0 then m
  else
    let encoded := encodeAdataLen unaligned adata.length
    let processed := if adata.length < 16 - encoded.length then adata.length else 16 - encoded.length
    let m := m.feed E (pad (encoded ++ adata.take processed))
    m.feedAll E (adata.drop processed)

/-- `ccm_init_ctx`, on a context of zeroes. `garbage` is what the new buffer holds. -/
def ccmInitCtx (unaligned : Bool) (E : Cipher) (macSize : ℕ) (nonce adata : List Byte)
    (dataSize : ℕ) (isEncryptInit : Bool) (garbage : Buf) : Except Rv Ctx :=
  match ccmValidateArgs macSize nonce.length dataSize isEncryptInit with
  | .success =>
    let dataLen := if isEncryptInit then dataSize else dataSize - macSize
    if !isEncryptInit ∧ dataLen = 0 then .error .hostMemory
    else .ok {
      mac := initMac unaligned E macSize nonce adata dataLen
      macLen := macSize
      dataLen := dataLen
      processedDataLen := 0
      processedMacLen := 0
      remainder := []
      cb := formatCb nonce
      counterMask := lowMask ((15 - nonce.length) * 8)
      macInput := fun _ => 0
      ptBuf := garbage }
  | rv => .error rv

/-! ## Encryption -/

section Functions

variable (E : Cipher)

/-- A round of the loop of `ccm_mode_encrypt_contiguous_blocks`. -/
def encStep (c : Ctx) (block : List Byte) : Ctx × List Byte :=
  ({ c with
      mac := c.mac.feed E block
      cb := c.next c.cb
      processedDataLen := c.processedDataLen + 16
      remainder := [] }, xorBytes block (E.enc c.cb.bytes))

def ccmModeEncryptContiguousBlocks (c : Ctx) (data : List Byte) : Rv × Ctx × List Byte :=
  let r := contiguousBlocks .dataLenRange (encStep E) c c.remainder data
  (r.1, { r.2.1 with remainder := r.2.2.1 }, r.2.2.2)

/-- Calls one after the other, until one fails: the output of all of them. -/
def encryptCalls (c : Ctx) : List (List Byte) → Rv × Ctx × List Byte
  | [] => (.success, c, [])
  | data :: rest =>
    match ccmModeEncryptContiguousBlocks E c data with
    | (.success, c, out) =>
      let r := encryptCalls c rest
      (r.1, r.2.1, out ++ r.2.2)
    | r => r

def calculateCcmMac (c : Ctx) : List Byte :=
  let cb : Cb := ⟨c.cb.upper, c.cb.lower &&& ~~~c.counterMask⟩
  xorBytes (c.mac.buf.take c.macLen) (E.enc cb.bytes)

def ccmEncryptFinal (c : Ctx) (cdLength : ℕ) : Rv × Ctx × List Byte :=
  if cdLength < c.remainder.length + c.macLen then (.dataLenRange, c, [])
  else if c.processedDataLen + c.remainder.length ≠ c.dataLen then (.dataLenRange, c, [])
  else
    let out := xorBytes c.remainder (E.enc c.cb.bytes)
    let c := { c with
      mac := if 0 < c.remainder.length then c.mac.feed E (pad c.remainder) else c.mac
      processedDataLen := c.processedDataLen + c.remainder.length }
    (.success, { c with remainder := [] }, out ++ calculateCcmMac E c)

/-! ## Decryption -/

def ccmDecryptIncompleteBlock (c : Ctx) : Ctx :=
  { c with ptBuf := putBytes c.ptBuf c.processedDataLen (xorBytes c.remainder (E.enc c.cb.bytes)) }

/-- The loop of `ccm_mode_decrypt_contiguous_blocks`, at most `fuel` rounds. -/
def decryptLoop : ℕ → Ctx → ℕ → List Byte → Rv × Ctx
  | 0, c, _, _ => (.success, c)
  | fuel + 1, c, remainder, data =>
    let need := 16 - c.remainder.length
    if 0 < c.remainder.length ∧ remainder < need then (.encryptedDataLenRange, c)
    else
      let block := c.remainder ++ data.take need
      let c := { c with
        cb := c.next c.cb
        ptBuf := putBytes c.ptBuf c.processedDataLen (xorBytes block (E.enc c.cb.bytes))
        processedDataLen := c.processedDataLen + 16
        remainder := [] }
      let data := data.drop need
      if 0 < data.length ∧ data.length < 16 then
        let c := { c with remainder := data }
        if 0 < c.processedMacLen then
          let c := ccmDecryptIncompleteBlock E c
          (.success, { c with processedDataLen := c.processedDataLen + data.length, remainder := [] })
        else (.success, c)
      else if data.length = 0 then (.success, c)
      else decryptLoop fuel c data.length data

def ccmModeDecryptContiguousBlocks (c : Ctx) (data : List Byte) : Rv × Ctx :=
  if 0 < c.processedMacLen then
    if c.macLen < c.processedMacLen + data.length then (.encryptedDataLenRange, c)
    else (.success, { c with
      macInput := putBytes c.macInput c.processedMacLen data
      processedMacLen := c.processedMacLen + data.length })
  else
    let total := c.processedDataLen + data.length + c.remainder.length
    if c.dataLen + c.macLen < total then (.encryptedDataLenRange, c)
    else if c.dataLen < total then
      let ptPart := c.dataLen - c.processedDataLen - c.remainder.length
      let c := { c with
        processedMacLen := data.length - ptPart
        macInput := putBytes c.macInput 0 (data.drop ptPart) }
      if ptPart + c.remainder.length < 16 then
        let c := ccmDecryptIncompleteBlock E { c with remainder := c.remainder ++ data.take ptPart }
        (.success, { c with remainder := [], processedDataLen := c.processedDataLen + ptPart })
      else decryptLoop E data.length c data.length (data.take ptPart)
    else if data.length + c.remainder.length < 16 then
      (.success, { c with remainder := c.remainder ++ data })
    else decryptLoop E data.length c data.length data

/-- A `size_t` passed as an `int` and made a `size_t` again. -/
def intLen (n : ℕ) : ℕ :=
  if n % 2 ^ 32 < 2 ^ 31 then n % 2 ^ 32 else 2 ^ 64 - 2 ^ 32 + n % 2 ^ 32

/-- `crypto_put_output_data` into one buffer of `iovLen` bytes: what is stored. -/
def cryptoPutOutputData (buf : Buf) (iovLen len : ℕ) : Rv × List Byte :=
  if iovLen < intLen len then (.bufferTooSmall, []) else (.success, bytesAt buf 0 (intLen len))

def ccmDecryptFinal (c : Ctx) (cdLength iovLen : ℕ) : Rv × List Byte :=
  if cdLength < c.dataLen then (.dataLenRange, [])
  else
    let c := { c with mac := c.mac.feedAll E (bytesAt c.ptBuf 0 c.processedDataLen) }
    if bytesAt c.macInput 0 c.macLen ≠ calculateCcmMac E c then (.invalidMac, [])
    else cryptoPutOutputData c.ptBuf iovLen c.dataLen

end Functions

end Osol.Modes.Ccm
