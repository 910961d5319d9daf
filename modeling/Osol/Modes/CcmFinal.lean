import Osol.Modes.CcmDecrypt

/-!
# What CCM decryption releases

`ccm_decrypt_final` compares the MAC it was given with the tag of the plaintext that was
counted. So the round trip works, and only authenticated plaintext is released, if all of the
plaintext was counted; otherwise there is a block function and a message for which both fail.
-/

namespace Osol.Modes.Ccm

open Osol.Lib List BitVec

variable {E : Cipher} {c : Ctx}

/-! ## How much is accepted -/

variable (dataLen limit : ℕ)

/-- The bytes that calls of these lengths bring, and how many there were when the last call
ended that ended in the ciphertext. -/
def ends (lens : List ℕ) : ℕ × ℕ :=
  lens.foldl (fun e n => if limit < e.1 + n then e
    else (e.1 + n, if e.1 + n ≤ dataLen then e.1 + n else e.2)) (0, 0)

theorem ends_eq (pieces : List (List Byte)) : ends dataLen limit (pieces.map List.length) =
      ((pieces.foldl (accept dataLen limit) ([], 0)).1.length,
        (pieces.foldl (accept dataLen limit) ([], 0)).2) := by
  suffices h : ∀ s : List Byte × ℕ, (pieces.map List.length).foldl (fun e n =>
      if limit < e.1 + n then e
      else (e.1 + n, if e.1 + n ≤ dataLen then e.1 + n else e.2)) (s.1.length, s.2) =
        ((pieces.foldl (accept dataLen limit) s).1.length,
          (pieces.foldl (accept dataLen limit) s).2) from h ([], 0)
  induction pieces with
  | nil => exact fun _ => rfl
  | cons data rest ih =>
    intro s
    rw [foldl_cons, ← ih, map_cons, foldl_cons, accept]
    split
    · rfl
    · rw [length_append]

theorem reached_foldl (pieces : List (List Byte)) :
    Reached dataLen (pieces.foldl (accept dataLen limit) ([], 0)) := by
  suffices h : ∀ s, Reached dataLen s → Reached dataLen (pieces.foldl (accept dataLen limit) s) from
    h _ ⟨Nat.zero_le _, fun _ => rfl⟩
  induction pieces with
  | nil => exact fun _ h => h
  | cons data rest ih => exact fun s h => ih _ (h.accept limit data)

theorem map_length_zeroes (lens : List ℕ) :
    (lens.map (List.replicate · (0 : Byte))).map List.length = lens := by
  rw [map_map]
  exact map_id'' (fun n => length_replicate) lens

theorem ends_le (lens : List ℕ) : (ends dataLen limit lens).2 ≤ dataLen := by
  rw [← map_length_zeroes lens, ends_eq]
  exact (reached_foldl _ _ _).le

theorem lost_eq_zero_iff {dataLen x : ℕ} (hx : x ≤ dataLen) :
    lost dataLen x = 0 ↔ x ≤ dataLen / 16 * 16 := by
  unfold lost
  split <;> omega

theorem intLen_eq_sub_lost {dataLen x : ℕ} (hx : x ≤ dataLen)
    (h : dataLen - lost dataLen x = intLen dataLen) :
    x ≤ dataLen / 16 * 16 ∧ intLen dataLen = dataLen := by
  have hlost : lost dataLen x < 16 ∧ lost dataLen x ≤ dataLen := by
    unfold lost
    split <;> omega
  have hzero : lost dataLen x = 0 := by
    unfold intLen at h
    split at h <;> omega
  exact ⟨(lost_eq_zero_iff hx).1 hzero, by omega⟩

theorem foldl_accept_all (dataLen : ℕ) {limit : ℕ} {s : List Byte × ℕ} (pieces : List (List Byte))
    (h : s.1.length + pieces.flatten.length ≤ limit) :
    (pieces.foldl (accept dataLen limit) s).1 = s.1 ++ pieces.flatten := by
  induction pieces generalizing s with
  | nil => simp
  | cons data rest ih =>
    rw [flatten_cons, length_append] at h
    have hacc : (accept dataLen limit s data).1 = s.1 ++ data := by rw [accept, if_neg (by omega)]
    rw [foldl_cons, ih (by rw [hacc, length_append]; omega), hacc, flatten_cons, List.append_assoc]

theorem exists_pieces (lens : List ℕ) (X : List Byte) (h : (ends dataLen limit lens).1 = X.length) :
    ∃ pieces : List (List Byte), pieces.map List.length = lens ∧
    (pieces.foldl (accept dataLen limit) ([], 0)).1 = X := by
  induction lens using reverseRecOn generalizing X with
  | nil => exact ⟨[], rfl, (eq_nil_of_length_eq_zero h.symm).symm⟩
  | append_singleton lens n ih =>
    rw [ends, foldl_append] at h
    change (if limit < (ends dataLen limit lens).1 + n then ends dataLen limit lens else _).1 = _ at h
    by_cases hlimit : limit < (ends dataLen limit lens).1 + n
    · rw [if_pos hlimit] at h
      obtain ⟨pieces, hlens, hbytes⟩ := ih X h
      refine ⟨pieces ++ [List.replicate n 0], by simp [hlens], ?_⟩
      rw [foldl_append, foldl_cons, foldl_nil, accept, hbytes, length_replicate, ← h, if_pos hlimit, hbytes]
    rw [if_neg hlimit] at h
    have h : (ends dataLen limit lens).1 + n = X.length := h
    have hlen : (X.take (X.length - n)).length = (ends dataLen limit lens).1 := by
      rw [length_take]
      omega
    obtain ⟨pieces, hlens, hbytes⟩ := ih _ hlen.symm
    refine ⟨pieces ++ [X.drop (X.length - n)], ?_, ?_⟩
    · rw [map_append, hlens, map_singleton, length_drop]
      congr 2
      omega
    · rw [foldl_append, foldl_cons, foldl_nil, accept, hbytes, hlen, if_neg, take_append_drop]
      rw [length_drop]
      omega

/-! ## `ccm_decrypt_final` -/

theorem after_fields (c : Ctx) (E : Cipher) (s : List Byte × ℕ) :
    (c.after E s).mac = c.mac ∧ (c.after E s).macLen = c.macLen ∧
      (c.after E s).dataLen = c.dataLen ∧ (c.after E s).counterMask = c.counterMask ∧
      ∃ i, (c.after E s).cb = c.next^[i] c.cb := by
  unfold Ctx.after
  split <;> exact ⟨rfl, rfl, rfl, rfl, _, rfl⟩

theorem final_after (c : Ctx) (E : Cipher) (s : List Byte × ℕ) (cdLength iovLen : ℕ) :
    ccmDecryptFinal E (c.after E s) cdLength iovLen = if cdLength < c.dataLen then (.dataLenRange, [])
      else if bytesAt (c.after E s).macInput 0 c.macLen ≠
          ccmTag E c (bytesAt (c.after E s).ptBuf 0 (c.after E s).processedDataLen) then
        (.invalidMac, [])
      else cryptoPutOutputData (c.after E s).ptBuf iovLen c.dataLen := by
  obtain ⟨hmac, hmacLen, hdata, hmask, i, hcb⟩ := after_fields c E s
  have hzero := zeroCb_iterate c c.cb i
  unfold Ctx.zeroCb at hzero
  unfold ccmDecryptFinal calculateCcmMac ccmTag Ctx.zeroCb
  simp only [hmac, hmacLen, hdata, hmask, hcb, hzero]

theorem after_complete {s : List Byte × ℕ} (hc : Fresh c) (hpos : 0 < c.macLen)
    (hs : s.1.length = c.dataLen + c.macLen) :
    bytesAt (c.after E s).macInput 0 c.macLen = s.1.drop c.dataLen ∧
      (c.after E s).ptBuf = putBytes c.ptBuf 0 (xorStream E c.next c.cb (s.1.take c.dataLen)) ∧
      (c.after E s).processedDataLen = c.dataLen - lost c.dataLen s.2 := by
  have hlen : (s.1.drop c.dataLen).length = c.macLen := by
    rw [length_drop]
    omega
  rw [Ctx.after, if_neg (by omega)]
  refine ⟨?_, ?_, ?_⟩
  · rw [bytesAt_putBytes _ _ hlen.ge, take_of_length_le hlen.le]
  · simp only [Ctx.finish, hc.processed]
  · simp only [Ctx.finish, hc.processed, length_take]
    omega

/-! ## The block function that adds bytes -/

/-- The XOR of all bytes. -/
def xorSum (l : List Byte) : Byte := l.foldr (· ^^^ ·) 0

theorem xorSum_append (l k : List Byte) : xorSum (l ++ k) = xorSum l ^^^ xorSum k := by
  induction l with
  | nil => simp [xorSum]
  | cons x l ih =>
    show x ^^^ xorSum (l ++ k) = x ^^^ xorSum l ^^^ xorSum k
    rw [ih, xor_assoc]

theorem xorSum_zeroes (n : ℕ) : xorSum (List.replicate n 0) = 0 := by
  induction n with
  | zero => rfl
  | succ n ih =>
    show 0 ^^^ xorSum (List.replicate n 0) = 0
    rw [ih]
    rfl

theorem xorSum_xorBytes {a b : List Byte} (h : a.length = b.length) :
    xorSum (xorBytes a b) = xorSum a ^^^ xorSum b := by
  induction a generalizing b with
  | nil =>
    rw [length_eq_zero_iff.1 h.symm]
    rfl
  | cons x a ih =>
    cases b with
    | nil => simp at h
    | cons y b =>
      show x ^^^ y ^^^ xorSum (xorBytes a b) = x ^^^ xorSum a ^^^ (y ^^^ xorSum b)
      rw [ih (Nat.succ.inj h)]
      ac_rfl

/-- A block with the XOR of the bytes in front and zeroes behind it. -/
def parity : Cipher := ⟨fun b => xorSum b :: List.replicate 15 0, fun _ => by simp⟩

theorem xorSum_block (x : Byte) : xorSum (x :: List.replicate 15 0) = x := by
  show x ^^^ xorSum (List.replicate 15 0) = x
  rw [xorSum_zeroes]
  simp

variable {x : Byte} {m : Mac}

theorem parity_feed (hm : m.buf = x :: List.replicate 15 0) {b : List Byte}
    (hb : b.length = 16) : (m.feed parity b).buf = (x ^^^ xorSum b) :: List.replicate 15 0 := by
  show xorSum (xorBytes b m.buf) :: _ = _
  rw [xorSum_xorBytes (by rw [hb, hm]; simp), hm, xorSum_block, BitVec.xor_comm]

theorem parity_feedAll (hm : m.buf = x :: List.replicate 15 0) (data : List Byte) :
    (m.feedAll parity data).buf = (x ^^^ xorSum data) :: List.replicate 15 0 := by
  induction data using blocks_induction (n := 16) (by decide) generalizing m x with
  | short data h =>
    rw [Mac.feedAll]
    split
    · next h0 =>
      rw [h0, hm]
      simp [xorSum]
    · have hlen : (pad data).length = 16 := by
        rw [pad, length_append, length_replicate]
        omega
      rw [parity_feed hm hlen, pad, xorSum_append, xorSum_zeroes]
      simp
  | block b data hb ih => rw [Mac.feedAll_block m hb, ih (parity_feed hm hb), xorSum_append, xor_assoc]

theorem parity_tag_inj (hm : c.mac.buf = x :: List.replicate 15 0) (hpos : 0 < c.macLen)
    {p q : List Byte} (h : ccmTag parity c p = ccmTag parity c q) : xorSum p = xorSum q := by
  have htake : ∀ y, ((y :: List.replicate 15 0 : List Byte).take c.macLen) =
      y :: (List.replicate 15 0).take (c.macLen - 1) := by
    intro y
    obtain ⟨k, hk⟩ := Nat.exists_eq_succ_of_ne_zero (by omega : c.macLen ≠ 0)
    rw [hk, take_succ_cons, Nat.succ_sub_one]
  unfold ccmTag at h
  rw [parity_feedAll hm, parity_feedAll hm, htake, htake] at h
  have hhead := (List.cons.inj h).1
  exact (xor_right_inj x).1 ((xor_left_inj _).1 hhead)

/-- The byte 1 at one place and zeroes elsewhere. -/
def oneAt (i : ℕ) : Buf := fun x => if x = i then 1 else 0

theorem xorSum_oneAt (i n : ℕ) : xorSum (bytesAt (oneAt i) 0 n) = if i < n then 1 else 0 := by
  induction n with
  | zero => rfl
  | succ n ih =>
    have hsucc : bytesAt (oneAt i) 0 (n + 1) = bytesAt (oneAt i) 0 n ++ [oneAt i n] := by
      simp [bytesAt, range_succ]
    rw [hsucc, xorSum_append, ih]
    unfold oneAt
    rcases Nat.lt_trichotomy i n with h | h | h
    · rw [if_pos h, if_neg (by omega), if_pos (by omega)]
      rfl
    · rw [if_neg (by omega), if_pos h.symm, if_pos (by omega)]
      rfl
    · rw [if_neg (by omega), if_neg (by omega), if_neg (by omega)]
      rfl

theorem initMac_parity (unaligned : Bool) (macLen : ℕ) (nonce adata : List Byte) (p : ℕ) :
    ∃ x, (initMac unaligned parity macLen nonce adata p).buf = x :: List.replicate 15 0 := by
  unfold initMac
  split
  · exact ⟨_, rfl⟩
  · exact ⟨_, parity_feedAll rfl _⟩

theorem length_feedAll (hm : m.buf.length = 16) (data : List Byte) :
    (m.feedAll E data).buf.length = 16 := by
  induction data using blocks_induction (n := 16) (by decide) generalizing m with
  | short data h =>
    rw [Mac.feedAll]
    split
    · exact hm
    · exact E.length_enc _
  | block b data hb ih =>
    rw [Mac.feedAll_block m hb]
    exact ih (E.length_enc _)

theorem length_initMac (unaligned : Bool) (E : Cipher) (macLen : ℕ) (nonce adata : List Byte)
    (p : ℕ) : (initMac unaligned E macLen nonce adata p).buf.length = 16 := by
  unfold initMac
  split
  · exact E.length_enc _
  · exact length_feedAll (E.length_enc _) _

theorem length_ccmTag (hm : c.mac.buf.length = 16) (hle : c.macLen ≤ 16) (p : List Byte) :
    (ccmTag E c p).length = c.macLen := by
  rw [ccmTag, length_xorBytes, length_take, length_feedAll hm, E.length_enc]
  omega

/-! ## Runs from the start -/

theorem Fresh.after_nil (hc : Fresh c) : c.after E ([], 0) = c := by
  have hread : c.after E ([], 0) = c.advance E [] := if_pos (Nat.zero_le _)
  rw [hread, advance_short (by decide)]
  exact congrArg (Ctx.mk _ _ _ _ _ · _ _ _ _) hc.remainder.symm

theorem Fresh.run (hc : Fresh c) (E : Cipher) (pieces : List (List Byte)) :
    let s := pieces.foldl (accept c.dataLen (c.dataLen + c.macLen)) ([], 0)
    (decryptCalls E c pieces).2 = c.after E s ∧ accepted pieces (decryptCalls E c pieces).1 = s.1 ∧
      (pieces.flatten.length ≤ c.dataLen + c.macLen → ∀ rv ∈ (decryptCalls E c pieces).1,
        rv = .success) := by
  have hrun := decryptCalls_eq (E := E) (s := ([], 0)) hc ⟨Nat.zero_le _, fun _ => rfl⟩ pieces
  rw [hc.after_nil, nil_append, length_nil, Nat.zero_add] at hrun
  exact ⟨hrun.1, hrun.2.1.symm, hrun.2.2⟩

/-- What is stored is the plaintext of a message that was accepted as a whole, and the MAC
accepted is the tag of what is stored. -/
def Authentic (E : Cipher) (c : Ctx) (pieces : List (List Byte)) (cdLength iovLen : ℕ) : Prop :=
  (ccmDecryptFinal E (decryptCalls E c pieces).2 cdLength iovLen).2 ≠ [] →
    (accepted pieces (decryptCalls E c pieces).1).length = c.dataLen + c.macLen ∧
      (accepted pieces (decryptCalls E c pieces).1).drop c.dataLen =
        ccmTag E c (ccmDecryptFinal E (decryptCalls E c pieces).2 cdLength iovLen).2

def Room (dataLen cdLength iovLen : ℕ) : Prop :=
  dataLen ≤ cdLength ∧ intLen dataLen ≤ iovLen ∧ intLen dataLen ≠ 0

section Authentic

variable {pieces : List (List Byte)} {cdLength iovLen : ℕ}

theorem authentic_iff (hc : Fresh c) :
    let s := pieces.foldl (accept c.dataLen (c.dataLen + c.macLen)) ([], 0)
    Authentic E c pieces cdLength iovLen ↔
      (Room c.dataLen cdLength iovLen → bytesAt (c.after E s).macInput 0 c.macLen =
          ccmTag E c (bytesAt (c.after E s).ptBuf 0 (c.after E s).processedDataLen) →
        s.1.length = c.dataLen + c.macLen ∧
          s.1.drop c.dataLen = ccmTag E c (bytesAt (c.after E s).ptBuf 0 (intLen c.dataLen))) := by
  obtain ⟨hctx, hacc, -⟩ := hc.run E pieces
  have hnil : ∀ b : Buf, bytesAt b 0 (intLen c.dataLen) ≠ [] ↔ intLen c.dataLen ≠ 0 := by
    intro b
    rw [ne_eq, ← length_eq_zero_iff, length_bytesAt]
  unfold Authentic Room
  rw [hctx, hacc, final_after]
  unfold cryptoPutOutputData
  split
  · exact iff_of_true (fun h => absurd rfl h) fun h => by omega
  split
  · next hmac => exact iff_of_true (fun h => absurd rfl h) fun _ h => absurd h hmac
  · next hmac =>
    split
    · exact iff_of_true (fun h => absurd rfl h) fun h => by omega
    · rw [hnil]
      exact ⟨fun h hroom _ => h hroom.2.2, fun h hne => h ⟨by omega, by omega, hne⟩ (not_not.1 hmac)⟩

theorem authentic_of_ends (hc : Fresh c) (hpos : 0 < c.macLen) (h : Room c.dataLen cdLength iovLen →
      (ends c.dataLen (c.dataLen + c.macLen) (pieces.map List.length)).1 = c.dataLen + c.macLen ∧
        intLen c.dataLen = c.dataLen ∧
        (ends c.dataLen (c.dataLen + c.macLen) (pieces.map List.length)).2 ≤ c.dataLen / 16 * 16) :
    Authentic E c pieces cdLength iovLen := by
  refine (authentic_iff hc).2 fun hroom hmac => ?_
  obtain ⟨hall, hint, hend⟩ := h hroom
  rw [ends_eq] at hall hend
  obtain ⟨hinput, -, hproc⟩ := after_complete hc hpos hall
  rw [hinput, hproc, (lost_eq_zero_iff (reached_foldl _ _ _).le).2 hend, Nat.sub_zero] at hmac
  rw [hint]
  exact ⟨hall, hmac⟩

end Authentic

/-! ## Messages that are not authentic -/

/-- The block function that gives zeroes. -/
def zeroes : Cipher := ⟨fun _ => List.replicate 16 0, fun _ => by simp⟩

theorem zeroes_feedAll (hm : m.buf = List.replicate 16 0) (data : List Byte) :
    (m.feedAll zeroes data).buf = List.replicate 16 0 := by
  induction data using blocks_induction (n := 16) (by decide) generalizing m with
  | short data h =>
    rw [Mac.feedAll]
    split
    · exact hm
    · rfl
  | block b data hb ih =>
    rw [Mac.feedAll_block m hb]
    exact ih rfl

theorem zeroes_tag (hm : c.mac.buf = List.replicate 16 0) (hle : c.macLen ≤ 16) (p : List Byte) :
    ccmTag zeroes c p = List.replicate c.macLen 0 := by
  unfold ccmTag
  rw [zeroes_feedAll hm, take_replicate, Nat.min_eq_left hle]
  show zipWith _ _ (List.replicate 16 0) = _
  rw [zipWith_replicate, Nat.min_eq_left hle]
  rfl

theorem complete_of_authentic (hc : Fresh c) (hinput : c.macInput = fun _ => 0)
    (hmac : c.mac.buf = List.replicate 16 0) (hle : c.macLen ≤ 16) {lens : List ℕ} {cdLength iovLen : ℕ}
    (hroom : Room c.dataLen cdLength iovLen)
    (h : Authentic zeroes c (lens.map (List.replicate · 0)) cdLength iovLen) :
    (ends c.dataLen (c.dataLen + c.macLen) lens).1 = c.dataLen + c.macLen := by
  have hends := ends_eq c.dataLen (c.dataLen + c.macLen) (lens.map (List.replicate · 0))
  rw [map_length_zeroes] at hends
  rw [hends]
  refine ((authentic_iff hc).1 h hroom ?_).1
  -- the MAC is zeroes too
  have hbytes : ∀ (s : List Byte × ℕ), (∀ x ∈ s.1, x = 0) → ∀ x ∈ ((lens.map
      (List.replicate · 0)).foldl (accept c.dataLen (c.dataLen + c.macLen)) s).1, x = 0 := by
    clear hends h
    induction lens with
    | nil => exact fun _ hs => hs
    | cons n lens ih =>
      refine fun s hs => ih _ fun x hx => ?_
      unfold accept at hx
      split at hx
      · exact hs x hx
      · rcases mem_append.1 hx with hx | hx
        · exact hs x hx
        · exact (mem_replicate.1 hx).2
  have hput : ∀ l : List Byte, (∀ x ∈ l, x = 0) → putBytes (fun _ => 0) 0 l = fun _ => 0 := by
    intro l hl
    funext x
    unfold putBytes
    split
    · rw [getD_eq_getElem?_getD]
      cases hx : l[x - 0]? with
      | none => rfl
      | some v => exact hl v (mem_of_getElem? hx)
    · rfl
  have hzero : ∀ s : List Byte × ℕ, (∀ x ∈ s.1, x = 0) → (c.after zeroes s).macInput = fun _ => 0 := by
    intro s hs
    unfold Ctx.after
    split
    · exact hinput
    · rw [hinput, hput _ fun x hx => hs x (mem_of_mem_drop hx)]
  rw [hzero _ (hbytes _ fun x hx => by cases hx), zeroes_tag hmac hle]
  show List.map (fun _ => 0) (range c.macLen) = _
  rw [map_const', length_range]

theorem counted_of_authentic (hc : Fresh c) (hmac : c.mac.buf = x :: List.replicate 15 0)
    (hpos : 0 < c.macLen) (hle : c.macLen ≤ 16) {lens : List ℕ} {cdLength iovLen e : ℕ}
    (hends : ends c.dataLen (c.dataLen + c.macLen) lens = (c.dataLen + c.macLen, e))
    (hbuf : c.ptBuf = oneAt (min (c.dataLen - lost c.dataLen e) (intLen c.dataLen)))
    (hroom : Room c.dataLen cdLength iovLen)
    (h : ∀ pieces, pieces.map List.length = lens → Authentic parity c pieces cdLength iovLen) :
    c.dataLen - lost c.dataLen e = intLen c.dataLen := by
  generalize hi : min (c.dataLen - lost c.dataLen e) (intLen c.dataLen) = i at hbuf
  have hstream : (xorStream parity c.next c.cb (bytesAt (oneAt i) 0 c.dataLen)).length = c.dataLen := by
    rw [length_xorStream, length_bytesAt]
  obtain ⟨pieces, rfl, hbytes⟩ := exists_pieces c.dataLen (c.dataLen + c.macLen) lens
    (xorStream parity c.next c.cb (bytesAt (oneAt i) 0 c.dataLen) ++
      ccmTag parity c (bytesAt (oneAt i) 0 (c.dataLen - lost c.dataLen e)))
    (by rw [hends, length_append, hstream, length_ccmTag (by simp [hmac]) hle])
  have hA := (authentic_iff hc).1 (h pieces rfl) hroom
  rw [ends_eq, Prod.mk.injEq] at hends
  obtain ⟨hinput, hpt, hproc⟩ := after_complete hc hpos hends.1
  rw [hinput, hpt, hproc, hends.2, hbytes, drop_left' hstream, take_left' hstream,
    xorStream_xorStream, hbuf, putBytes_bytesAt] at hA
  have hsum := parity_tag_inj hmac hpos (hA rfl).2
  rw [xorSum_oneAt, xorSum_oneAt] at hsum
  by_contra hne
  rcases Nat.lt_or_gt_of_ne hne with hlt | hgt
  · rw [if_neg (by omega), if_pos (by omega)] at hsum
    cases hsum
  · rw [if_pos (by omega), if_neg (by omega)] at hsum
    cases hsum

/-! ## Contexts for decryption -/

/-- The context that `ccm_init_ctx` gives. -/
def initial (unaligned : Bool) (E : Cipher) (macSize : ℕ) (nonce adata : List Byte) (dataLen : ℕ)
    (garbage : Buf) : Ctx :=
  { mac := initMac unaligned E macSize nonce adata dataLen
    macLen := macSize
    dataLen := dataLen
    processedDataLen := 0
    processedMacLen := 0
    remainder := []
    cb := formatCb nonce
    counterMask := lowMask ((15 - nonce.length) * 8)
    macInput := fun _ => 0
    ptBuf := garbage }

section Initial

variable {unaligned : Bool} {macSize : ℕ} {nonce adata : List Byte} {dataSize : ℕ} {garbage : Buf}

theorem fresh_initial : Fresh (initial unaligned E macSize nonce adata dataSize garbage) := ⟨rfl, rfl, rfl⟩

theorem ccmInitCtx_encrypt (hv : ccmValidateArgs macSize nonce.length dataSize true = .success) :
    ccmInitCtx unaligned E macSize nonce adata dataSize true garbage =
      .ok (initial unaligned E macSize nonce adata dataSize garbage) := by
  unfold ccmInitCtx
  rw [hv]
  rfl

theorem ccmInitCtx_decrypt (unaligned : Bool) (E : Cipher) (adata : List Byte) (garbage : Buf)
    (hv : ccmValidateArgs macSize nonce.length (dataSize + macSize) false = .success)
    (hpos : 0 < dataSize) :
    ccmInitCtx unaligned E macSize nonce adata (dataSize + macSize) false garbage =
      .ok (initial unaligned E macSize nonce adata dataSize garbage) := by
  unfold ccmInitCtx
  rw [hv]
  simp only [Bool.false_eq_true, if_false, Nat.add_sub_cancel]
  exact if_neg (by omega)

theorem of_ccmInitCtx_decrypt
    (h : ccmInitCtx unaligned E macSize nonce adata (dataSize + macSize) false garbage = .ok c) :
    ccmValidateArgs macSize nonce.length (dataSize + macSize) false = .success ∧ 0 < dataSize ∧
      c = initial unaligned E macSize nonce adata dataSize garbage := by
  unfold ccmInitCtx at h
  split at h
  · next hv =>
    simp only [Bool.false_eq_true, if_false, Nat.add_sub_cancel] at h
    split at h
    · cases h
    · next hpos =>
      cases h
      refine ⟨hv, ?_, rfl⟩
      simp at hpos
      omega
  · cases h

end Initial

/-- Calls with this many bytes each, and `ccm_decrypt_final` with this much room: what is
stored is authentic. -/
def ReleasesAuthentic (unaligned : Bool) (macSize nonceSize dataSize : ℕ) (lens : List ℕ)
    (cdLength iovLen : ℕ) : Prop :=
  ∀ (E : Cipher) (nonce adata : List Byte) (garbage : Buf) (pieces : List (List Byte)) (c : Ctx),
    nonce.length = nonceSize → pieces.map List.length = lens →
    ccmInitCtx unaligned E macSize nonce adata (dataSize + macSize) false garbage = .ok c →
    Authentic E c pieces cdLength iovLen

/-- For every nonce length, every length of the message, every way to cut it and all room in
the output: what is stored is complete and authenticated, unless the calls did not bring all
of the message, or the length of the plaintext is not an `int`, or the last call that ended in
the ciphertext ended behind its last full block. -/
theorem ccm_release_iff (unaligned : Bool) (macSize nonceSize dataSize : ℕ) (lens : List ℕ)
    (cdLength iovLen : ℕ)
    (hv : ccmValidateArgs macSize nonceSize (dataSize + macSize) false = .success)
    (hpos : 0 < dataSize) :
    ReleasesAuthentic unaligned macSize nonceSize dataSize lens cdLength iovLen ↔
      (dataSize ≤ cdLength ∧ intLen dataSize ≤ iovLen ∧ intLen dataSize ≠ 0 →
        (ends dataSize (dataSize + macSize) lens).1 = dataSize + macSize ∧
          intLen dataSize = dataSize ∧
          (ends dataSize (dataSize + macSize) lens).2 ≤ dataSize / 16 * 16) := by
  obtain ⟨⟨hm, hm', -⟩, -⟩ := ccmValidateArgs_iff.1 hv
  constructor
  · intro h hroom
    have hnonce : (List.replicate nonceSize (0 : Byte)).length = nonceSize := length_replicate
    have hinit := fun E garbage => ccmInitCtx_decrypt unaligned E [] garbage (by rw [hnonce]; exact hv) hpos
    have hall := complete_of_authentic
      fresh_initial rfl rfl hm' hroom (h zeroes _ [] _ _ _ hnonce (map_length_zeroes lens)
        (hinit zeroes fun _ => 0))
    obtain ⟨x, hx⟩ := initMac_parity unaligned macSize (List.replicate nonceSize 0) [] dataSize
    have hcounted := counted_of_authentic (c := initial unaligned parity macSize _ [] dataSize
      (oneAt (min (dataSize - lost dataSize (ends dataSize (dataSize + macSize) lens).2)
        (intLen dataSize))))
      fresh_initial hx (by show 0 < macSize; omega) hm' (Prod.ext hall rfl) rfl hroom
        fun pieces hlens => h parity _ [] _ pieces _ hnonce hlens (hinit parity _)
    exact ⟨hall, (intLen_eq_sub_lost (ends_le _ _ _) hcounted).symm⟩
  · intro h E nonce adata garbage pieces c hn hlens hinit
    obtain ⟨-, -, rfl⟩ := of_ccmInitCtx_decrypt hinit
    subst hlens
    exact authentic_of_ends fresh_initial (by show 0 < macSize; omega) h

theorem ccm_release_iff_two_calls : ReleasesAuthentic true 4 13 20 [10, 14] 20 20 :=
  (ccm_release_iff true 4 13 20 [10, 14] 20 20 (by decide) (by decide)).2 fun _ => by decide

/-- Without any call, what the new buffer held is stored; and a call that ends in the last
block makes the byte before it count for nothing. -/
theorem ccm_release_fails :
    (∃ c, ccmInitCtx true zeroes 4 (List.replicate 13 0) [] 5 false (fun _ => 7) = .ok c ∧
      accepted [] (decryptCalls zeroes c []).1 = [] ∧
      ccmDecryptFinal zeroes (decryptCalls zeroes c []).2 1 1 = (.success, [7])) ∧
    ¬ ReleasesAuthentic true 4 13 2 [1, 5] 2 2 := by
  constructor
  · refine ⟨initial true zeroes 4 (List.replicate 13 0) [] 1 fun _ => 7,
      ccmInitCtx_decrypt _ _ _ _ (by decide) (by decide), rfl, ?_⟩
    show ccmDecryptFinal zeroes (initial true zeroes 4 (List.replicate 13 0) [] 1 fun _ => 7) 1 1 = _
    have hmac : ∀ m : Mac, m.feedAll zeroes [] = m := fun m => by rw [Mac.feedAll, if_pos rfl]
    unfold ccmDecryptFinal
    rw [show bytesAt (initial true zeroes 4 (List.replicate 13 0) [] 1 fun _ => 7).ptBuf 0
      (initial true zeroes 4 (List.replicate 13 0) [] 1 fun _ => 7).processedDataLen = [] from rfl, hmac]
    decide
  · intro h
    obtain ⟨x, hx⟩ := initMac_parity true 4 (List.replicate 13 0) [] 2
    have hcounted := counted_of_authentic (c := initial true parity 4 _ [] 2 (oneAt 1))
      fresh_initial hx (by decide) (by decide) rfl rfl ⟨le_rfl, by decide, by decide⟩
        fun pieces hlens => h parity (List.replicate 13 0) [] _ pieces _ rfl hlens
          (ccmInitCtx_decrypt _ _ _ _ (by decide) (by decide))
    cases hcounted

/-! ## The round trip -/

def encryptMessage (unaligned : Bool) (E : Cipher) (macSize : ℕ) (nonce adata : List Byte)
    (pieces : List (List Byte)) (garbage : Buf) (room : ℕ) : Except Rv (List Byte) :=
  match ccmInitCtx unaligned E macSize nonce adata pieces.flatten.length true garbage with
  | .error rv => .error rv
  | .ok c =>
    match encryptCalls E c pieces with
    | (.success, c, out) =>
      match ccmEncryptFinal E c room with
      | (.success, _, last) => .ok (out ++ last)
      | (rv, _, _) => .error rv
    | (rv, _, _) => .error rv

/-- All of decryption: the first error, or what `ccm_decrypt_final` stores. -/
def decryptMessage (unaligned : Bool) (E : Cipher) (macSize : ℕ) (nonce adata : List Byte)
    (pieces : List (List Byte)) (garbage : Buf) (room : ℕ) : Except Rv (List Byte) :=
  match ccmInitCtx unaligned E macSize nonce adata pieces.flatten.length false garbage with
  | .error rv => .error rv
  | .ok c =>
    match (decryptCalls E c pieces).1.find? (fun rv => decide (rv ≠ .success)) with
    | some rv => .error rv
    | none =>
      match ccmDecryptFinal E (decryptCalls E c pieces).2 room room with
      | (.success, out) => .ok out
      | (rv, _) => .error rv

/-- Plaintexts and messages of these lengths come back as they were, however the plaintext is
cut for encryption, if the message is cut like this for decryption. -/
def RoundTrip (unaligned : Bool) (macSize nonceSize dataSize : ℕ) (cuts : List ℕ) : Prop :=
  ∀ (E : Cipher) (nonce adata : List Byte) (plain : List (List Byte)) (garbage garbage' : Buf)
    (room : ℕ), nonce.length = nonceSize → adata.length < 2 ^ 31 → plain.flatten.length = dataSize →
    dataSize + macSize ≤ room →
    ∃ message, encryptMessage unaligned E macSize nonce adata plain garbage room = .ok message ∧
      ∀ pieces : List (List Byte), pieces.flatten = message → pieces.map List.length = cuts →
        decryptMessage unaligned E macSize nonce adata pieces garbage' room = .ok plain.flatten

section RoundTrip

variable {unaligned : Bool} {macSize dataSize : ℕ} {nonce adata : List Byte} {garbage : Buf}

theorem encryptMessage_eq (garbage' : Buf) {pieces : List (List Byte)} {room : ℕ}
    (hv : ccmValidateArgs macSize nonce.length pieces.flatten.length true = .success)
    (hroom : pieces.flatten.length + macSize ≤ room) :
    encryptMessage unaligned E macSize nonce adata pieces garbage room =
      let c := initial unaligned E macSize nonce adata pieces.flatten.length garbage'
      .ok (xorStream E c.next c.cb pieces.flatten ++ ccmTag E c pieces.flatten) := by
  have henc := encrypt_eq (E := E) (c := initial unaligned E macSize nonce adata pieces.flatten.length
    garbage) fresh_initial pieces rfl (show pieces.flatten.length % 16 + macSize ≤ room by omega)
  unfold encryptMessage
  rw [ccmInitCtx_encrypt hv]
  simp only at henc ⊢
  generalize encryptCalls E (initial unaligned E macSize nonce adata pieces.flatten.length garbage)
    pieces = r at henc
  obtain ⟨rv, c', out⟩ := r
  obtain ⟨rfl, hfinal, hout, -⟩ := henc
  simp only at hfinal hout ⊢
  generalize ccmEncryptFinal E c' room = f at hfinal hout
  obtain ⟨rv, c'', last⟩ := f
  subst hfinal
  exact congrArg Except.ok hout

theorem decryptMessage_eq_ok_iff {pieces : List (List Byte)} {room : ℕ} {out : List Byte}
    (hc : initial unaligned E macSize nonce adata dataSize garbage = c) (hpos : 0 < macSize)
    (hlen : pieces.flatten.length = dataSize + macSize) (hroom : dataSize ≤ room) :
    decryptMessage unaligned E macSize nonce adata pieces garbage room = .ok out ↔
      (ccmValidateArgs macSize nonce.length (dataSize + macSize) false = .success ∧ 0 < dataSize) ∧
        pieces.flatten.drop dataSize = ccmTag E c (bytesAt (putBytes garbage 0
          (xorStream E c.next c.cb (pieces.flatten.take dataSize))) 0 (dataSize -
            lost dataSize (ends dataSize (dataSize + macSize) (pieces.map List.length)).2)) ∧
        intLen dataSize ≤ room ∧ bytesAt (putBytes garbage 0
          (xorStream E c.next c.cb (pieces.flatten.take dataSize))) 0 (intLen dataSize) = out := by
  have hfresh : Fresh c := hc ▸ fresh_initial
  obtain ⟨hdata, hmacLen, hpt⟩ : c.dataLen = dataSize ∧ c.macLen = macSize ∧ c.ptBuf = garbage := by
    subst hc
    exact ⟨rfl, rfl, rfl⟩
  have hall := foldl_accept_all dataSize (s := ([], 0)) pieces
    (show 0 + pieces.flatten.length ≤ dataSize + macSize by omega)
  rw [nil_append] at hall
  obtain ⟨hctx, -, hsuccess⟩ := hfresh.run E pieces
  have hcomplete := after_complete (E := E)
    hfresh (by omega) (by rw [hall]; omega)
  have hfinal := final_after c E (pieces.foldl (accept dataSize (dataSize + macSize)) ([], 0)) room room
  rw [hdata, hmacLen, hall, hpt] at hcomplete
  rw [hdata, hmacLen] at hctx hsuccess hfinal
  rw [if_neg (Nat.not_lt.2 hroom), hcomplete.1, hcomplete.2.1, hcomplete.2.2,
    ← congrArg Prod.snd (ends_eq dataSize (dataSize + macSize) pieces)] at hfinal
  have hnone := List.find?_eq_none.2 (fun rv hrv => by simpa using hsuccess hlen.le rv hrv :
    ∀ rv ∈ (decryptCalls E c pieces).1, ¬ decide (rv ≠ .success) = true)
  have hok : decryptMessage unaligned E macSize nonce adata pieces garbage room = .ok out ↔
      (ccmValidateArgs macSize nonce.length (dataSize + macSize) false = .success ∧ 0 < dataSize) ∧
        ccmDecryptFinal E (decryptCalls E c pieces).2 room room = (.success, out) := by
    unfold decryptMessage
    rw [hlen]
    constructor
    · intro h
      cases hinit : ccmInitCtx unaligned E macSize nonce adata (dataSize + macSize) false garbage with
      | error rv => simp only [hinit, reduceCtorEq] at h
      | ok c' =>
        obtain ⟨hv, hd, rfl⟩ := of_ccmInitCtx_decrypt hinit
        simp only [hinit, hc, hnone] at h
        refine ⟨⟨hv, hd⟩, ?_⟩
        split at h
        · next heq =>
          cases h
          exact heq
        · cases h
    · rintro ⟨⟨hv, hd⟩, hfin⟩
      rw [ccmInitCtx_decrypt _ _ _ _ hv hd]
      simp only [hc, hnone, hfin]
  rw [hok, hctx, hfinal]
  refine and_congr_right fun _ => ?_
  unfold cryptoPutOutputData
  split
  · next hmac => exact ⟨fun h => (by cases h), fun h => absurd h.1 hmac⟩
  next hmac =>
  split
  · next hint => exact ⟨fun h => (by cases h), fun h => absurd h.2.1 (Nat.not_le.2 hint)⟩
  · next hint =>
    rw [Prod.mk.injEq]
    exact ⟨fun h => ⟨not_not.1 hmac, Nat.not_lt.1 hint, h.2⟩, fun h => ⟨rfl, h.2.2⟩⟩

end RoundTrip

/-- For every length of the nonce, the MAC and the plaintext, and every way to cut the
message: the round trip works if and only if there is plaintext, the length of the message fits
the nonce, the length of the plaintext is an `int`, and the last call that ends in the ciphertext
does not end behind its last full block. -/
theorem ccm_roundTrip_iff (unaligned : Bool) (macSize nonceSize dataSize : ℕ) (cuts : List ℕ)
    (hv : ccmValidateArgs macSize nonceSize dataSize true = .success)
    (hcuts : cuts.sum = dataSize + macSize) :
    RoundTrip unaligned macSize nonceSize dataSize cuts ↔
      0 < dataSize ∧ dataSize + macSize < 256 ^ (15 - nonceSize) ∧ intLen dataSize = dataSize ∧
        (ends dataSize (dataSize + macSize) cuts).2 ≤ dataSize / 16 * 16 := by
  obtain ⟨⟨hm, hm', heven⟩, hn, -, hsize⟩ := ccmValidateArgs_iff.1 hv
  have hlost := lost_eq_zero_iff (ends_le dataSize (dataSize + macSize) cuts)
  constructor
  · intro h
    generalize hp : bytesAt (oneAt (dataSize - 1)) 0 dataSize = p
    have hplen : p.length = dataSize := by rw [← hp, length_bytesAt]
    obtain ⟨message, hmessage, hdec⟩ := h parity (List.replicate nonceSize 0) [] [p]
      (oneAt (dataSize - 1)) (oneAt (dataSize - 1)) (dataSize + macSize) (by simp) (by simp)
      (by simpa using hplen) le_rfl
    have hflat : [p].flatten = p := by simp
    rw [encryptMessage_eq (oneAt (dataSize - 1)) (by rw [hflat, length_replicate, hplen]; exact hv)
      (by rw [hflat, hplen]), hflat, hplen] at hmessage
    cases hmessage
    generalize hc : initial unaligned parity macSize (List.replicate nonceSize 0) [] dataSize
      (oneAt (dataSize - 1)) = c at hdec
    have htag : (ccmTag parity c p).length = macSize := by
      rw [← hc]
      exact length_ccmTag (length_initMac _ _ _ _ _ _) hm' _
    -- the message cut for decryption
    have hlen : (xorStream parity c.next c.cb p ++ ccmTag parity c p).length = cuts.sum := by
      rw [length_append, length_xorStream, hplen, htag, hcuts]
    have hpieces := flatten_splitLengths _ cuts hlen.le
    have hmap := map_splitLengths_length _ cuts hlen.ge
    have hok := hdec _ hpieces hmap
    rw [decryptMessage_eq_ok_iff hc (by omega) (by rw [hpieces, hlen, hcuts]) (by omega), hpieces,
      hmap, drop_left' (by simp [hplen]), take_left' (by simp [hplen]), xorStream_xorStream, ← hp,
      putBytes_bytesAt] at hok
    obtain ⟨⟨hvalid, hpos⟩, hmac, -, hout⟩ := hok
    refine ⟨hpos, ?_, ?_, hlost.1 ?_⟩
    · have := (ccmValidateArgs_iff.1 hvalid).2.2.2
      rwa [length_replicate] at this
    · simpa using congrArg List.length hout
    obtain ⟨y, hy⟩ := initMac_parity unaligned macSize (List.replicate nonceSize 0) [] dataSize
    have hsum := parity_tag_inj (by rw [← hc]; exact hy)
      (by rw [← hc]; show 0 < macSize; omega) hmac
    rw [xorSum_oneAt, xorSum_oneAt, if_pos (by omega)] at hsum
    by_contra hne
    rw [if_neg (by omega)] at hsum
    cases hsum
  · rintro ⟨hpos, hmax, hint, hcut⟩ E nonce adata plain garbage garbage' room hnonce hadata hplain hroom
    subst hnonce hplain
    refine ⟨_, encryptMessage_eq garbage' hv (by omega), fun pieces hpieces hlens => ?_⟩
    have hlen : pieces.flatten.length = plain.flatten.length + macSize := by
      rw [hpieces, length_append, length_xorStream,
        length_ccmTag (length_initMac _ _ _ _ _ _) (by exact hm')]
      rfl
    have hbytes : ∀ b : Buf, bytesAt (putBytes b 0 plain.flatten) 0 plain.flatten.length =
      plain.flatten := fun b => by rw [bytesAt_putBytes _ _ le_rfl, take_length]
    rw [decryptMessage_eq_ok_iff rfl (by omega) hlen (by omega), hpieces, hlens, hlost.2 hcut,
      Nat.sub_zero, drop_left' (by simp), take_left' (by simp), xorStream_xorStream, hint, hbytes]
    exact ⟨⟨ccmValidateArgs_iff.2 ⟨⟨hm, hm', heven⟩, hn, Or.inr (Nat.le_add_left _ _), hmax⟩, hpos⟩,
      rfl, by omega, rfl⟩

theorem ccm_roundTrip_iff_two_calls : RoundTrip true 4 13 20 [10, 14] :=
  (ccm_roundTrip_iff true 4 13 20 [10, 14] (by decide) (by decide)).2 (by decide)

/-- The message of the plaintext 0, 1 in calls of one and of five bytes. -/
theorem ccm_roundTrip_fails :
    encryptMessage true parity 4 (List.replicate 13 0) [] [[0, 1]] (fun _ => 0) 6 =
      .ok [0, 1, 11, 0, 0, 0] ∧
    decryptMessage true parity 4 (List.replicate 13 0) [] [[0], [1, 11, 0, 0, 0]] (fun _ => 0) 6 ≠
      .ok [0, 1] := by
  refine ⟨rfl, fun hok => ?_⟩
  rw [decryptMessage_eq_ok_iff (c := initial true parity 4 _ [] 2 _) rfl (by decide) (by decide)
    (by decide)] at hok
  have hmac := hok.2.1
  rw [ccmTag, parity_feedAll rfl] at hmac
  cases hmac

end Osol.Modes.Ccm
