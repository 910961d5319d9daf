import Osol.Modes.Ccm

/-!
# CCM encryption

What the calls that encrypt a payload and `ccm_encrypt_final` give: the payload XORed with
the keystream, then the tag. How the payload is cut does not matter, nor for the blocks that are
fed into the CBC-MAC: the payload and the associated data, each padded to whole blocks.
-/

namespace Osol.Modes.Ccm

open Osol.Lib Function List Nat

variable {E : Cipher} {c : Ctx}

/-! ## Padding -/

def paddedBlocks (data : List Byte) : List (List Byte) :=
  if data = [] then []
  else if data.length < 16 then [pad data]
  else data.take 16 :: paddedBlocks (data.drop 16)
  termination_by data.length
  decreasing_by
    rw [length_drop]
    omega

variable (data : List Byte)

/-- Data with zeroes up to the end of a block. -/
def padded : List Byte := data ++ replicate (15 - (data.length + 15) % 16) 0

theorem paddedBlocks_short {data : List Byte} (h0 : data ≠ []) (h : data.length < 16) :
    paddedBlocks data = [pad data] := by
  rw [paddedBlocks, if_neg h0, if_pos h]

theorem paddedBlocks_block {b : List Byte} (hb : b.length = 16) (data : List Byte) :
    paddedBlocks (b ++ data) = b :: paddedBlocks data := by
  have hne : b ++ data ≠ [] := by
    intro h
    have := congrArg List.length h
    simp [hb] at this
  rw [paddedBlocks, if_neg hne, if_neg (by rw [length_append]; omega)]
  have htake : (b ++ data).take 16 = b := by rw [← hb, take_left]
  have hdrop : (b ++ data).drop 16 = data := by rw [← hb, drop_left]
  rw [htake, hdrop]

@[simp] theorem paddedBlocks_nil : paddedBlocks [] = [] := by rw [paddedBlocks, if_pos rfl]

theorem flatten_paddedBlocks : (paddedBlocks data).flatten = padded data := by
  induction data using blocks_induction (n := 16) (by decide) with
  | short data h =>
    by_cases h0 : data = []
    · subst h0
      rw [paddedBlocks_nil]
      rfl
    · have := length_pos_of_ne_nil h0
      rw [paddedBlocks_short h0 h, flatten_singleton, pad, padded,
        show 16 - data.length = 15 - (data.length + 15) % 16 by omega]
  | block b data hb ih =>
    rw [paddedBlocks_block hb, flatten_cons, ih, padded, padded, append_assoc,
      show (b ++ data).length + 15 = 16 + (data.length + 15) by rw [length_append, hb]; omega,
      add_mod_left]

theorem mem_paddedBlocks {data b : List Byte} (h : b ∈ paddedBlocks data) : b.length = 16 := by
  induction data using blocks_induction (n := 16) (by decide) with
  | short data hd =>
    by_cases h0 : data = []
    · subst h0
      rw [paddedBlocks_nil] at h
      cases h
    · rw [paddedBlocks_short h0 hd, mem_singleton] at h
      rw [h, pad, length_append, length_replicate]
      omega
  | block c data hc ih =>
    rw [paddedBlocks_block hc, mem_cons] at h
    rcases h with rfl | h
    · exact hc
    · exact ih h

theorem length_padded : (padded data).length = (data.length + 15) / 16 * 16 := by
  rw [padded, length_append, length_replicate]
  omega

theorem padded_inj {a b : List Byte} (hlen : a.length = b.length) (h : padded a = padded b) : a = b := by
  have := congrArg (List.take a.length) h
  rwa [padded, padded, take_left, hlen, take_left] at this

theorem Mac.feedAll_block (m : Mac) {b : List Byte} (hb : b.length = 16) (data : List Byte) :
    m.feedAll E (b ++ data) = (m.feed E b).feedAll E data := by
  have hne : b ++ data ≠ [] := by
    intro h
    have := congrArg List.length h
    simp [hb] at this
  have htake : (b ++ data).take 16 = b := by rw [← hb, take_left]
  have hdrop : (b ++ data).drop 16 = data := by rw [← hb, drop_left]
  rw [Mac.feedAll, if_neg hne, if_neg (by rw [length_append]; omega), htake, hdrop]

theorem Mac.feedAll_fed (E : Cipher) (m : Mac) (data : List Byte) :
    (m.feedAll E data).fed = m.fed ++ paddedBlocks data := by
  induction data using blocks_induction (n := 16) (by decide) generalizing m with
  | short data h =>
    rw [Mac.feedAll]
    by_cases h0 : data = []
    · rw [if_pos h0, h0, paddedBlocks_nil, append_nil]
    · rw [if_neg h0, if_pos h, paddedBlocks_short h0 h]
      rfl
  | block b data hb ih =>
    rw [Mac.feedAll_block m hb, ih, paddedBlocks_block hb, Mac.feed, append_assoc]
    rfl

/-! ## Encryption -/

/-- The full blocks of a payload, and what is left of it. -/
structure Encrypted (E : Cipher) (c : Ctx) (l : List Byte) (r : Ctx × List Byte × List Byte) :
    Prop where
  macLen : r.1.macLen = c.macLen
  dataLen : r.1.dataLen = c.dataLen
  counterMask : r.1.counterMask = c.counterMask
  cb : r.1.cb = c.next^[l.length / 16] c.cb
  processed : r.1.processedDataLen = c.processedDataLen + l.length / 16 * 16
  mac : r.1.mac.feedAll E r.2.1 = c.mac.feedAll E l
  out : r.2.2 ++ xorBytes r.2.1 (E.enc r.1.cb.bytes) = xorStream E c.next c.cb l

theorem runBlocks_encStep (c : Ctx) (l : List Byte) : Encrypted E c l (runBlocks 16 (encStep E) c l) := by
  induction l using blocks_induction (n := 16) (by decide) generalizing c with
  | short l h =>
    rw [runBlocks_of_lt h]
    have hdiv : l.length / 16 = 0 := div_eq_of_lt h
    refine ⟨rfl, rfl, rfl, ?_, ?_, rfl, ?_⟩
    · rw [hdiv, iterate_zero, id]
    · rw [hdiv, Nat.zero_mul, Nat.add_zero]
    · rw [xorStream_short E _ c.cb h.le]
      rfl
  | block b l hb ih =>
    have hstep := ih (encStep E c b).1
    rw [runBlocks_block (by decide) hb]
    have hdiv : (b ++ l).length / 16 = l.length / 16 + 1 := by
      rw [length_append, hb, add_div_left _ (by decide)]
    refine ⟨hstep.macLen, hstep.dataLen, hstep.counterMask, ?_, ?_, ?_, ?_⟩
    · rw [hdiv, iterate_succ_apply]
      exact hstep.cb
    · have hproc : (encStep E c b).1.processedDataLen = c.processedDataLen + 16 := rfl
      have := hstep.processed
      simp only
      omega
    · rw [Mac.feedAll_block c.mac hb]
      exact hstep.mac
    · simp only [append_assoc]
      rw [hstep.out, xorStream_append E _ _ (by rw [hb]), hb, Nat.div_self (by decide),
        iterate_one, xorStream_short E _ _ hb.le]
      rfl

theorem runBlocks_remainder (c : Ctx) (rem rem' l : List Byte) :
    let r := runBlocks 16 (encStep E) { c with remainder := rem } l
    let q := runBlocks 16 (encStep E) c l
    { r.1 with remainder := rem' } = { q.1 with remainder := rem' } ∧ r.2 = q.2 := by
  rcases Nat.lt_or_ge l.length 16 with h | h
  · simp only [runBlocks_of_lt h]
    exact ⟨trivial, trivial⟩
  · simp only [runBlocks_of_le (by decide : 0 < 16) h]
    exact ⟨rfl, rfl⟩

theorem encryptCalls_eq (hrem : c.remainder.length < 16) (pieces : List (List Byte)) :
    encryptCalls E c pieces =
      (.success, { (runBlocks 16 (encStep E) c (c.remainder ++ pieces.flatten)).1 with
        remainder := (runBlocks 16 (encStep E) c (c.remainder ++ pieces.flatten)).2.1 },
        (runBlocks 16 (encStep E) c (c.remainder ++ pieces.flatten)).2.2) := by
  induction pieces generalizing c with
  | nil => rw [encryptCalls, flatten_nil, append_nil, runBlocks_of_lt hrem]
  | cons data rest ih =>
    have hlen : (runBlocks 16 (encStep E) c (c.remainder ++ data)).2.1.length < 16 := by
      rw [length_runBlocks_rest (by decide)]
      exact mod_lt _ (by decide)
    rw [encryptCalls, ccmModeEncryptContiguousBlocks, contiguousBlocks_eq _ _ c hrem]
    simp only
    rw [ih hlen]
    obtain ⟨hstate, hrest⟩ := runBlocks_remainder
      (runBlocks 16 (encStep E) c (c.remainder ++ data)).1
      (runBlocks 16 (encStep E) c (c.remainder ++ data)).2.1
      (runBlocks 16 (encStep E) (runBlocks 16 (encStep E) c (c.remainder ++ data)).1
        ((runBlocks 16 (encStep E) c (c.remainder ++ data)).2.1 ++ rest.flatten)).2.1
      ((runBlocks 16 (encStep E) c (c.remainder ++ data)).2.1 ++ rest.flatten)
    rw [hrest, hstate, flatten_cons, ← append_assoc, runBlocks_append (by decide) c (c.remainder ++ data)]

/-! ## The tag -/

theorem bump_and_not (mask w : BitVec 64) : bump mask w &&& ~~~mask = w &&& ~~~mask := by
  ext i hi
  simp only [bump, bumped, BitVec.getElem_and, BitVec.getElem_or, BitVec.getElem_not]
  cases mask[i] <;> simp

def Ctx.zeroCb (c : Ctx) (cb : Cb) : Cb := ⟨cb.upper, cb.lower &&& ~~~c.counterMask⟩

theorem zeroCb_iterate (c : Ctx) (cb : Cb) (i : ℕ) : c.zeroCb (c.next^[i] cb) = c.zeroCb cb := by
  induction i with
  | zero => rfl
  | succ i ih =>
    rw [iterate_succ_apply', ← ih]
    unfold Ctx.zeroCb Ctx.next
    rw [bump_and_not]

/-- The tag of a payload in a context as `ccm_init` leaves it. -/
def ccmTag (E : Cipher) (c : Ctx) (payload : List Byte) : List Byte :=
  xorBytes ((c.mac.feedAll E payload).buf.take c.macLen) (E.enc (c.zeroCb c.cb).bytes)

/-- A context as `ccm_init` leaves it. -/
structure Fresh (c : Ctx) : Prop where
  remainder : c.remainder = []
  processed : c.processedDataLen = 0
  processedMac : c.processedMacLen = 0

theorem ccmValidateArgs_iff {macSize nonceSize dataSize : ℕ} {isEncryptInit : Bool} :
    ccmValidateArgs macSize nonceSize dataSize isEncryptInit = .success ↔
      (4 ≤ macSize ∧ macSize ≤ 16 ∧ macSize % 2 = 0) ∧ (7 ≤ nonceSize ∧ nonceSize ≤ 13) ∧
        (isEncryptInit = true ∨ macSize ≤ dataSize) ∧ dataSize < 256 ^ (15 - nonceSize) := by
  unfold ccmValidateArgs
  by_cases hm : macSize < 4 ∨ 16 < macSize ∨ macSize % 2 ≠ 0
  · rw [if_pos hm]
    exact ⟨fun h => (by cases h), fun h => by omega⟩
  rw [if_neg hm]
  by_cases hn : nonceSize < 7 ∨ 13 < nonceSize
  · rw [if_pos hn]
    exact ⟨fun h => (by cases h), fun h => by omega⟩
  rw [if_neg hn]
  have hmax : (if 15 - nonceSize < 8 then 2 ^ ((15 - nonceSize) * 8) - 1 else 2 ^ 64 - 1) + 1 =
      256 ^ (15 - nonceSize) := by
    have hpow : 2 ^ ((15 - nonceSize) * 8) = 256 ^ (15 - nonceSize) := by
      rw [Nat.mul_comm, pow_mul]
      rfl
    have hpos := Nat.two_pow_pos ((15 - nonceSize) * 8)
    split
    · omega
    · have : nonceSize = 7 := by omega
      subst this
      rfl
  by_cases he : (!isEncryptInit) = true ∧ dataSize < macSize
  · rw [if_pos he]
    refine ⟨fun h => (by cases h), fun h => ?_⟩
    rcases h.2.2.1 with htrue | hle
    · simp [htrue] at he
    · omega
  rw [if_neg he]
  have he' : isEncryptInit = true ∨ macSize ≤ dataSize := by
    cases isEncryptInit
    · exact Or.inr (by simpa using he)
    · exact Or.inl rfl
  generalize (if 15 - nonceSize < 8 then 2 ^ ((15 - nonceSize) * 8) - 1 else 2 ^ 64 - 1) = top
    at hmax
  by_cases ht : top < dataSize
  · rw [if_pos ht]
    exact ⟨fun h => (by cases h), fun h => by omega⟩
  · rw [if_neg ht]
    exact ⟨fun _ => ⟨by omega, by omega, he', by omega⟩, fun _ => rfl⟩

theorem encrypt_eq (hc : Fresh c) (pieces : List (List Byte))
    (hlen : pieces.flatten.length = c.dataLen) {cdLength : ℕ}
    (hcd : c.dataLen % 16 + c.macLen ≤ cdLength) :
    let r := encryptCalls E c pieces
    let f := ccmEncryptFinal E r.2.1 cdLength
    r.1 = .success ∧ f.1 = .success ∧
      r.2.2 ++ f.2.2 = xorStream E c.next c.cb pieces.flatten ++ ccmTag E c pieces.flatten ∧
      f.2.1.mac = c.mac.feedAll E pieces.flatten := by
  have hcalls := encryptCalls_eq (E := E) (by rw [hc.remainder]; decide) pieces
  rw [hc.remainder, nil_append] at hcalls
  have henc := runBlocks_encStep (E := E) c pieces.flatten
  have hrest : (runBlocks 16 (encStep E) c pieces.flatten).2.1.length =
    pieces.flatten.length % 16 := length_runBlocks_rest (by decide) _ _
  simp only [hcalls]
  generalize runBlocks 16 (encStep E) c pieces.flatten = r at henc hrest ⊢
  obtain ⟨c', rem, out⟩ := r
  obtain ⟨hml, hdata, hmask, hcb, hproc, hmac, hout⟩ := henc
  simp only [hc.processed, Nat.zero_add] at hml hdata hmask hcb hproc hmac hout hrest ⊢
  have hlast : (if 0 < rem.length then c'.mac.feed E (pad rem) else c'.mac) =
    c.mac.feedAll E pieces.flatten := by
    rw [← hmac, Mac.feedAll]
    by_cases h0 : rem = []
    · rw [if_pos h0, if_neg (by simp [h0])]
    · rw [if_neg h0, if_pos (length_pos_of_ne_nil h0), if_pos (by omega)]
  have hzero : (⟨c'.cb.upper, c'.cb.lower &&& ~~~c.counterMask⟩ : Cb) = c.zeroCb c.cb := by
    rw [hcb]
    exact zeroCb_iterate c c.cb _
  unfold ccmEncryptFinal
  rw [if_neg (by simp only [hml]; omega), if_neg (by simp only [hdata, hproc]; omega)]
  simp only [calculateCcmMac, hlast, hml, hmask, hzero]
  refine ⟨trivial, trivial, ?_, trivial⟩
  rw [← append_assoc, hout]
  rfl

end Osol.Modes.Ccm
