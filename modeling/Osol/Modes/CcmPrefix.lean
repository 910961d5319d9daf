import Osol.Modes.CcmEncrypt

/-!
# Prefix-freeness of what CCM authenticates

The first block tells whether there is associated data, the length of the nonce, the nonce
and the length of the payload; the encoded length tells how much associated data follows. So
the blocks of one message are a prefix of those of another only if the messages are equal,
unless the encoded lengths agree for different lengths.
-/

namespace Osol.Modes.Ccm

open Osol.Lib List Nat

variable (unaligned : Bool)

/-- The blocks fed into the CBC-MAC when a payload is encrypted piece by piece; `none` if the
parameters are refused. -/
def authenticated (E : Cipher) (macSize : ℕ) (nonce adata : List Byte)
    (pieces : List (List Byte)) : Option (List (List Byte)) :=
  match ccmInitCtx unaligned E macSize nonce adata pieces.flatten.length true (fun _ => 0) with
  | .error _ => none
  | .ok c =>
    let r := encryptCalls E c pieces
    some (ccmEncryptFinal E r.2.1 (16 + macSize)).2.1.mac.fed

/-! ## The blocks -/

def adataBlocks (adata : List Byte) : List (List Byte) :=
  if adata.length = 0 then []
  else paddedBlocks (encodeAdataLen unaligned adata.length ++ adata)

theorem length_encodeAdataLen (len : ℕ) :
    2 ≤ (encodeAdataLen unaligned len).length ∧ (encodeAdataLen unaligned len).length ≤ 10 := by
  unfold encodeAdataLen
  split_ifs <;> simp

theorem initMac_fed (E : Cipher) (macLen : ℕ) (nonce adata : List Byte) (p : ℕ) :
    (initMac unaligned E macLen nonce adata p).fed =
      formatB0 macLen nonce adata.length p :: adataBlocks unaligned adata := by
  unfold initMac adataBlocks
  by_cases h0 : adata.length = 0
  · simp only [if_pos h0]
    rfl
  simp only [if_neg h0]
  rw [Mac.feedAll_fed]
  have henc := length_encodeAdataLen unaligned adata.length
  have hblocks : paddedBlocks (encodeAdataLen unaligned adata.length ++ adata) =
      pad (encodeAdataLen unaligned adata.length ++
        adata.take (if adata.length < 16 - (encodeAdataLen unaligned adata.length).length
          then adata.length else 16 - (encodeAdataLen unaligned adata.length).length)) ::
      paddedBlocks (adata.drop (if adata.length < 16 - (encodeAdataLen unaligned adata.length).length
          then adata.length else 16 - (encodeAdataLen unaligned adata.length).length)) := by
    generalize encodeAdataLen unaligned adata.length = e at henc ⊢
    by_cases hs : adata.length < 16 - e.length
    · rw [if_pos hs, take_length, drop_length, paddedBlocks_nil,
        paddedBlocks_short (by intro h; simp [(append_eq_nil_iff.1 h).1] at henc)
        (by rw [length_append]; omega)]
    rw [if_neg hs]
    have hlen : (e ++ adata.take (16 - e.length)).length = 16 := by
      rw [length_append, length_take]
      omega
    have hsplit : e ++ adata = (e ++ adata.take (16 - e.length)) ++ adata.drop (16 - e.length) := by
      rw [append_assoc, take_append_drop]
    rw [hsplit, paddedBlocks_block hlen, pad, hlen]
    simp
  rw [hblocks]
  rfl

theorem authenticated_eq {unaligned : Bool} {E : Cipher} {macSize : ℕ} {nonce adata : List Byte}
    {pieces : List (List Byte)}
    (hv : ccmValidateArgs macSize nonce.length pieces.flatten.length true = .success) :
    authenticated unaligned E macSize nonce adata pieces =
      some (formatB0 macSize nonce adata.length pieces.flatten.length ::
        (adataBlocks unaligned adata ++ paddedBlocks pieces.flatten)) := by
  unfold authenticated ccmInitCtx
  rw [hv]
  simp only [Bool.not_true, Bool.false_eq_true, false_and, if_false, if_true]
  rw [(encrypt_eq ⟨rfl, rfl, rfl⟩ pieces rfl (by simp only; omega)).2.2.2, Mac.feedAll_fed, initMac_fed]
  rfl

/-! ## Messages from blocks -/

section First

variable {macLen : ℕ} {n1 n2 : List Byte} {a1 a2 p1 p2 : ℕ}

theorem flags_eq {x y z : ℕ} (hy : y < 8) (hz : z < 8) :
    x <<< 6 ||| y <<< 3 ||| z = x * 64 + y * 8 + z := by
  have h1 : x <<< 6 ||| y <<< 3 = x <<< 6 + y <<< 3 :=
    (shiftLeft_add_eq_or_of_lt (by rw [shiftLeft_eq]; omega) x).symm
  have h2 : x <<< 6 + y <<< 3 = (x * 8 + y) <<< 3 := by omega
  rw [h1, h2, ← shiftLeft_add_eq_or_of_lt (by omega) (x * 8 + y), shiftLeft_eq]
  omega

theorem toBytes_inj {n v w : ℕ} (hv : v < 256 ^ n) (hw : w < 256 ^ n)
    (h : toBytes n v = toBytes n w) : v = w := by
  have := congrArg ofBytes h
  rwa [ofBytes_toBytes, ofBytes_toBytes, mod_eq_of_lt hv, mod_eq_of_lt hw] at this

/-- The first block gives the nonce, the length of the payload and whether there is
associated data. -/
theorem formatB0_inj (h₁ : ccmValidateArgs macLen n1.length p1 true = .success)
    (h₂ : ccmValidateArgs macLen n2.length p2 true = .success)
    (h : formatB0 macLen n1 a1 p1 = formatB0 macLen n2 a2 p2) :
    n1 = n2 ∧ p1 = p2 ∧ (a1 = 0 ↔ a2 = 0) := by
  obtain ⟨⟨hm, hm', -⟩, ⟨hl1, hu1⟩, -, hp1⟩ := ccmValidateArgs_iff.1 h₁
  obtain ⟨-, ⟨hl2, hu2⟩, -, hp2⟩ := ccmValidateArgs_iff.1 h₂
  simp only [formatB0, cons_append, List.cons.injEq] at h
  obtain ⟨hflags, hrest⟩ := h
  have hy : (macLen - 2) / 2 < 8 := by omega
  rw [flags_eq hy (by omega), flags_eq hy (by omega)] at hflags
  have hnat := congrArg BitVec.toNat hflags
  simp only [BitVec.toNat_ofNat] at hnat
  have hq : n1.length = n2.length := by split at hnat <;> split at hnat <;> omega
  obtain ⟨hn, hlen⟩ := append_inj hrest hq
  subst hn
  refine ⟨rfl, ?_, ?_⟩
  · have hlimit : (if 8 < 15 - n1.length then 8 else 15 - n1.length) = 15 - n1.length := if_neg (by omega)
    rw [hlimit, Nat.sub_self, replicate_zero, nil_append, nil_append] at hlen
    exact toBytes_inj hp1 hp2 (reverse_injective hlen)
  · split at hnat <;> split at hnat <;> omega

end First

/-- Two lengths of associated data that are encoded alike. -/
def Collides (a1 a2 : ℕ) : Prop :=
  unaligned = true ∧ a1 ≠ a2 ∧ 2 ^ 31 ≤ a1 ∧ 2 ^ 31 ≤ a2 ∧ a1 % 2 ^ 32 = a2 % 2 ^ 32

variable {a : ℕ}

theorem encodeAdataLen_small (h : a < 65280) :
    encodeAdataLen unaligned a = [BitVec.ofNat 8 (a / 256), BitVec.ofNat 8 a] := by
  unfold encodeAdataLen
  rw [if_pos (by omega)]
  rfl

theorem encodeAdataLen_middle (h : 65280 ≤ a) (h' : a < 2 ^ 31) :
    encodeAdataLen unaligned a = 0xff :: 0xfe :: (toBytes 4 a).reverse := by
  unfold encodeAdataLen
  rw [if_neg (by omega), if_pos h']

/-- The eight bytes behind the marker of a large length. -/
def largeLen (a : ℕ) : List Byte :=
  if unaligned then toBytes 8 (ofBytes (toBytes 4 (a % 2 ^ 32)).reverse) else (toBytes 8 a).reverse

theorem encodeAdataLen_large (h : 2 ^ 31 ≤ a) :
    encodeAdataLen unaligned a = 0xff :: 0xff :: largeLen unaligned a := by
  unfold encodeAdataLen largeLen
  rw [if_neg (by omega), if_neg (by omega)]
  cases unaligned <;> rfl

theorem largeLen_inj {unaligned : Bool} {a1 a2 : ℕ} (h₁ : a1 < 2 ^ 64) (h₂ : a2 < 2 ^ 64)
    (h : largeLen unaligned a1 = largeLen unaligned a2) :
    a1 = a2 ∨ (unaligned = true ∧ a1 % 2 ^ 32 = a2 % 2 ^ 32) := by
  cases unaligned with
  | false => exact Or.inl (toBytes_inj h₁ h₂ (reverse_injective h))
  | true =>
    right
    have hlt : ∀ a, ofBytes (toBytes 4 (a % 2 ^ 32)).reverse < 256 ^ 8 := by
      intro a
      have := ofBytes_lt (toBytes 4 (a % 2 ^ 32)).reverse
      rw [length_reverse, length_toBytes] at this
      exact this.trans (by decide)
    have hof := toBytes_inj (hlt a1) (hlt a2) h
    have hb : ∀ a, toBytes 4 (ofBytes (toBytes 4 (a % 2 ^ 32)).reverse) =
      (toBytes 4 (a % 2 ^ 32)).reverse := by
      intro a
      have := toBytes_ofBytes (toBytes 4 (a % 2 ^ 32)).reverse
      rwa [length_reverse, length_toBytes] at this
    have hbytes := congrArg (toBytes 4) hof
    rw [hb, hb] at hbytes
    exact ⟨rfl, toBytes_inj (mod_lt _ (by decide)) (mod_lt _ (by decide))
      (reverse_injective hbytes)⟩

theorem encodeAdataLen_inj {unaligned : Bool} {a1 a2 : ℕ} (h₁ : a1 < 2 ^ 64) (h₂ : a2 < 2 ^ 64)
    (hc : ¬ Collides unaligned a1 a2) {l1 l2 : List Byte}
    (h : encodeAdataLen unaligned a1 ++ l1 = encodeAdataLen unaligned a2 ++ l2) : a1 = a2 := by
  have hff : ∀ a, a < 65280 → BitVec.ofNat 8 (a / 256) ≠ 0xff := by
    intro a ha hb
    have := congrArg BitVec.toNat hb
    simp only [BitVec.toNat_ofNat, show BitVec.toNat (255 : Byte) = 255 from rfl] at this
    omega
  rcases Nat.lt_or_ge a1 65280 with s1 | s1
  · rw [encodeAdataLen_small _ s1] at h
    rcases Nat.lt_or_ge a2 65280 with s2 | s2
    · rw [encodeAdataLen_small _ s2] at h
      simp only [cons_append, nil_append, List.cons.injEq] at h
      have hhi := congrArg BitVec.toNat h.1
      have hlo := congrArg BitVec.toNat h.2.1
      simp only [BitVec.toNat_ofNat] at hhi hlo
      omega
    · rcases Nat.lt_or_ge a2 (2 ^ 31) with m2 | m2
      · rw [encodeAdataLen_middle _ s2 m2] at h
        exact absurd (List.cons.inj h).1 (hff a1 s1)
      · rw [encodeAdataLen_large _ m2] at h
        exact absurd (List.cons.inj h).1 (hff a1 s1)
  rcases Nat.lt_or_ge a2 65280 with s2 | s2
  · rw [encodeAdataLen_small _ s2] at h
    rcases Nat.lt_or_ge a1 (2 ^ 31) with m1 | m1
    · rw [encodeAdataLen_middle _ s1 m1] at h
      exact absurd (List.cons.inj h).1.symm (hff a2 s2)
    · rw [encodeAdataLen_large _ m1] at h
      exact absurd (List.cons.inj h).1.symm (hff a2 s2)
  rcases Nat.lt_or_ge a1 (2 ^ 31) with m1 | m1
  · rw [encodeAdataLen_middle _ s1 m1] at h
    rcases Nat.lt_or_ge a2 (2 ^ 31) with m2 | m2
    · rw [encodeAdataLen_middle _ s2 m2] at h
      simp only [cons_append, List.cons.injEq, true_and] at h
      have := (append_inj h (by simp)).1
      exact toBytes_inj (m1.trans (by decide)) (m2.trans (by decide)) (reverse_injective this)
    · rw [encodeAdataLen_large _ m2] at h
      simp at h
  · rw [encodeAdataLen_large _ m1] at h
    rcases Nat.lt_or_ge a2 (2 ^ 31) with m2 | m2
    · rw [encodeAdataLen_middle _ s2 m2] at h
      simp at h
    rw [encodeAdataLen_large _ m2] at h
    simp only [cons_append, List.cons.injEq, true_and] at h
    have hlarge := (append_inj h (by unfold largeLen; split <;> simp)).1
    rcases largeLen_inj h₁ h₂ hlarge with heq | ⟨hu, hmod⟩
    · exact heq
    · by_contra hne
      exact hc ⟨hu, hne, m1, m2, hmod⟩

/-! ## Prefixes -/

section Prefixes

variable {unaligned : Bool} {macLen : ℕ} {n1 n2 d1 d2 p1 p2 : List Byte}

theorem flatten_adataBlocks (adata : List Byte) :
    (adataBlocks unaligned adata).flatten = if adata.length = 0 then [] else
      padded (encodeAdataLen unaligned adata.length ++ adata) := by
  unfold adataBlocks
  split
  · rfl
  · exact flatten_paddedBlocks _

theorem padded_append_inj {a b l k : List Byte} (hlen : a.length = b.length)
    (h : padded a ++ l <+: padded b ++ k) : a = b ∧ l <+: k := by
  obtain ⟨t, ht⟩ := h
  rw [append_assoc] at ht
  have hl : (padded a).length = (padded b).length := by rw [length_padded, length_padded, hlen]
  obtain ⟨hab, hrest⟩ := append_inj ht hl
  exact ⟨padded_inj hlen hab, t, hrest⟩

theorem message_inj (h₁ : ccmValidateArgs macLen n1.length p1.length true = .success)
    (h₂ : ccmValidateArgs macLen n2.length p2.length true = .success)
    (hd1 : d1.length < 2 ^ 64) (hd2 : d2.length < 2 ^ 64)
    (hc : n1.length = n2.length → p1.length = p2.length → ¬ Collides unaligned d1.length d2.length)
    (h : formatB0 macLen n1 d1.length p1.length :: (adataBlocks unaligned d1 ++ paddedBlocks p1) <+:
      formatB0 macLen n2 d2.length p2.length :: (adataBlocks unaligned d2 ++ paddedBlocks p2)) :
    n1 = n2 ∧ d1 = d2 ∧ p1 = p2 := by
  rw [cons_prefix_cons] at h
  obtain ⟨hb0, t, ht⟩ := h
  obtain ⟨hn, hp, ha⟩ := formatB0_inj h₁ h₂ hb0
  subst hn
  have hflat := congrArg flatten ht
  simp only [flatten_append, flatten_adataBlocks, flatten_paddedBlocks] at hflat
  by_cases h0 : d1.length = 0
  · have h0' := ha.1 h0
    simp only [if_pos h0, if_pos h0', nil_append] at hflat
    have hpre : padded p1 ++ [] <+: padded p2 ++ [] := ⟨t.flatten, by simpa using hflat⟩
    rw [eq_nil_of_length_eq_zero h0, eq_nil_of_length_eq_zero h0']
    exact ⟨rfl, rfl, (padded_append_inj hp hpre).1⟩
  have h0' : ¬ d2.length = 0 := fun h => h0 (ha.2 h)
  simp only [if_neg h0, if_neg h0'] at hflat
  have hlen : d1.length = d2.length := by
    have hbytes := hflat
    simp only [padded, append_assoc] at hbytes
    exact encodeAdataLen_inj hd1 hd2 (hc rfl hp) hbytes
  have hpre : padded (encodeAdataLen unaligned d1.length ++ d1) ++ (padded p1 ++ []) <+:
      padded (encodeAdataLen unaligned d2.length ++ d2) ++ (padded p2 ++ []) :=
    ⟨t.flatten, by simpa [append_assoc] using hflat⟩
  obtain ⟨hd, hpp⟩ := padded_append_inj (by rw [hlen, length_append, length_append, hlen]) hpre
  rw [hlen] at hd
  exact ⟨rfl, append_cancel_left hd, (padded_append_inj hp hpp).1⟩

theorem paddedBlocks_zeroes (n : ℕ) :
    paddedBlocks (replicate n 0) = replicate ((n + 15) / 16) (replicate 16 0) := by
  have hmem : ∀ b ∈ paddedBlocks (replicate n 0), b = replicate 16 0 := by
    intro b hb
    refine eq_replicate_iff.2 ⟨mem_paddedBlocks hb, fun x hx => ?_⟩
    have hx' : x ∈ (paddedBlocks (replicate n 0)).flatten := mem_flatten.2 ⟨b, hb, hx⟩
    rw [flatten_paddedBlocks, padded, mem_append] at hx'
    rcases hx' with h | h <;> exact (mem_replicate.1 h).2
  refine eq_replicate_iff.2 ⟨?_, hmem⟩
  have hflat := congrArg List.length (flatten_paddedBlocks (replicate n 0))
  rw [length_padded, length_replicate, eq_replicate_iff.2 ⟨rfl, hmem⟩] at hflat
  simp only [length_flatten, map_replicate, length_replicate, sum_replicate, smul_eq_mul] at hflat
  omega

theorem zeroes_collide {a1 a2 : ℕ} (n p : ℕ) (hc : Collides true a1 a2) (hle : a1 ≤ a2) :
    formatB0 macLen (replicate n 0) a1 p ::
        (adataBlocks true (replicate a1 0) ++ paddedBlocks (replicate p 0)) <+:
      formatB0 macLen (replicate n 0) a2 p ::
        (adataBlocks true (replicate a2 0) ++ paddedBlocks (replicate p 0)) := by
  obtain ⟨-, -, h₁, h₂, hmod⟩ := hc
  have hb0 : formatB0 macLen (replicate n 0) a1 p = formatB0 macLen (replicate n 0) a2 p := by
    unfold formatB0
    rw [if_pos (show 0 < a1 by omega), if_pos (show 0 < a2 by omega)]
  have hlarge : largeLen true a1 = largeLen true a2 := by simp only [largeLen, hmod, if_true]
  have hblocks : ∀ a, 2 ^ 31 ≤ a → adataBlocks true (replicate a 0) =
      (0xff :: 0xff :: (largeLen true a ++ replicate 6 0)) ::
        replicate ((a - 6 + 15) / 16) (replicate 16 0) := by
    intro a ha
    have hlen : (0xff :: 0xff :: (largeLen true a ++ replicate 6 0)).length = 16 := by simp [largeLen]
    unfold adataBlocks
    rw [length_replicate, if_neg (by omega), encodeAdataLen_large true ha,
      ← paddedBlocks_zeroes, ← paddedBlocks_block hlen]
    have hsplit : replicate a (0 : Byte) = replicate 6 0 ++ replicate (a - 6) 0 := by
      rw [replicate_append_replicate]
      congr 1
      omega
    rw [hsplit]
    simp
  rw [hb0, hblocks a1 h₁, hblocks a2 h₂, hlarge, paddedBlocks_zeroes, cons_prefix_cons,
    cons_append, cons_append, cons_prefix_cons, replicate_append_replicate,
    replicate_append_replicate]
  refine ⟨rfl, rfl, replicate ((a2 - 6 + 15) / 16 - (a1 - 6 + 15) / 16) (replicate 16 0), ?_⟩
  rw [replicate_append_replicate]
  congr 1
  omega

theorem zeroes_authenticated {E : Cipher} {n p : ℕ}
    (h : ccmValidateArgs macLen n p true = .success) (a : ℕ) :
    authenticated true E macLen (replicate n 0) (replicate a 0) [replicate p 0] =
      some (formatB0 macLen (replicate n 0) a p ::
        (adataBlocks true (replicate a 0) ++ paddedBlocks (replicate p 0))) := by
  have hflat : [replicate p (0 : Byte)].flatten = replicate p 0 := by simp
  rw [authenticated_eq (by rw [hflat, length_replicate, length_replicate]; exact h),
    hflat, length_replicate, length_replicate]

end Prefixes

/-- For every length of the nonces, the associated data and the payloads: the blocks of a
message are a prefix of those of another only if the messages are equal, unless the lengths
of the associated data collide where unaligned pointers are permitted. -/
theorem ccm_prefix_free_iff (unaligned : Bool) (E : Cipher) (macLen n1 a1 p1 n2 a2 p2 : ℕ)
    (h₁ : ccmValidateArgs macLen n1 p1 true = .success)
    (h₂ : ccmValidateArgs macLen n2 p2 true = .success) (ha1 : a1 < 2 ^ 64) (ha2 : a2 < 2 ^ 64) :
    (∀ (nonce1 adata1 nonce2 adata2 : List Byte) (pieces1 pieces2 : List (List Byte))
      (b1 b2 : List (List Byte)), nonce1.length = n1 → adata1.length = a1 →
      pieces1.flatten.length = p1 → nonce2.length = n2 → adata2.length = a2 →
      pieces2.flatten.length = p2 →
      authenticated unaligned E macLen nonce1 adata1 pieces1 = some b1 →
      authenticated unaligned E macLen nonce2 adata2 pieces2 = some b2 → (b1 <+: b2 ∨ b2 <+: b1) →
      nonce1 = nonce2 ∧ adata1 = adata2 ∧ pieces1.flatten = pieces2.flatten) ↔
      ¬ (n1 = n2 ∧ p1 = p2 ∧ unaligned = true ∧ a1 ≠ a2 ∧ 2 ^ 31 ≤ a1 ∧ 2 ^ 31 ≤ a2 ∧
        a1 % 2 ^ 32 = a2 % 2 ^ 32) := by
  constructor
  · rintro h ⟨rfl, rfl, rfl, hne, hc⟩
    have heq := h (replicate n1 0) (replicate a1 0) (replicate n1 0)
      (replicate a2 0) [replicate p1 0] [replicate p1 0] _ _ (by simp) (by simp)
      (by simp) (by simp) (by simp) (by simp) (zeroes_authenticated h₁ a1)
      (zeroes_authenticated h₁ a2) ?_
    · have := congrArg List.length heq.2.1
      simp only [length_replicate] at this
      exact hne this
    · rcases Nat.le_total a1 a2 with hle | hle
      · exact Or.inl (zeroes_collide n1 p1 ⟨rfl, hne, hc⟩ hle)
      · exact Or.inr (zeroes_collide n1 p1 ⟨rfl, hne.symm, hc.2.1, hc.1, hc.2.2.symm⟩ hle)
  · intro hc nonce1 adata1 nonce2 adata2 pieces1 pieces2 b1 b2 hn1 hd1 hp1 hn2 hd2 hp2 hb1 hb2 hpre
    subst hn1 hd1 hp1 hn2 hd2 hp2
    rw [authenticated_eq h₁, Option.some.injEq] at hb1
    rw [authenticated_eq h₂, Option.some.injEq] at hb2
    subst hb1 hb2
    rcases hpre with hpre | hpre
    · exact message_inj h₁ h₂ ha1 ha2 (fun hn hp hcol => hc ⟨hn, hp, hcol⟩) hpre
    · obtain ⟨hn, hd, hp⟩ := message_inj h₂ h₁ ha2 ha1 (fun hn hp hcol =>
        hc ⟨hn.symm, hp.symm, hcol.1, hcol.2.1.symm, hcol.2.2.2.1, hcol.2.2.1, hcol.2.2.2.2.symm⟩) hpre
      exact ⟨hn.symm, hd.symm, hp.symm⟩

/-- The length of the associated data takes two bytes in one message and six in the other. -/
theorem ccm_prefix_free_iff_boundary : ¬ ∃ b1 b2,
    authenticated true counting 4 (replicate 13 0) (replicate 65279 0) [[1], [2, 3]] = some b1 ∧
    authenticated true counting 4 (replicate 13 0) (replicate 65280 0) [[1, 2, 3]] = some b2 ∧
    (b1 <+: b2 ∨ b2 <+: b1) := by
  rintro ⟨b1, b2, h₁, h₂, h⟩
  have heq := (ccm_prefix_free_iff true counting 4 13 65279 3 13 65280 3 (by decide) (by decide)
    (by decide) (by decide)).2 (by decide) _ _ _ _ _ _ _ _ length_replicate length_replicate rfl
    length_replicate length_replicate rfl h₁ h₂ h
  have hlen := congrArg List.length heq.2.1
  rw [length_replicate, length_replicate] at hlen
  exact absurd hlen (by decide)

/-- Associated data of 2 GB and of 6 GB, all zeroes. -/
theorem ccm_prefix_free_fails : ∃ b1 b2,
    authenticated true counting 4 (replicate 13 0) (replicate (2 ^ 31) 0)
      [replicate 1 0] = some b1 ∧
    authenticated true counting 4 (replicate 13 0) (replicate (2 ^ 31 + 2 ^ 32) 0)
      [replicate 1 0] = some b2 ∧ b1 <+: b2 ∧
    (replicate (2 ^ 31) 0 : List Byte) ≠ replicate (2 ^ 31 + 2 ^ 32) 0 := by
  have hv : ccmValidateArgs 4 13 1 true = .success := by decide
  refine ⟨_, _, zeroes_authenticated hv _, zeroes_authenticated hv _,
    zeroes_collide 13 1 ⟨rfl, by omega, by omega, by omega, by omega⟩ (by omega), fun h => ?_⟩
  have := congrArg List.length h
  rw [length_replicate, length_replicate] at this
  omega

end Osol.Modes.Ccm
