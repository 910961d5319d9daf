import Osol.Uconv.Basic

/-!
# Encoding forms

What the functions convert between: the units of a Unicode scalar value in UTF-8, UTF-16 and
UTF-32, and where they stand in memory in a byte order. The scalar values are the values of
`Char`, and UTF-8 is that of `String`.

Each `put` of the model stores one character if its units still fit, and is `E2BIG` without
a store if they do not.
-/

namespace Osol.Uconv

open Osol.Lib Function List BitVec Nat Except

/-! ## Units in memory -/

variable (sys o : Endian)

/-- The unit that a machine of order `sys` reads where `v` stands in order `o`. -/
def place (n v : ℕ) : Word n :=
  BitVec.ofNat _ (ofBytes (sys.order (o.order (toBytes n v))))

theorem two_pow_eight_mul (n : ℕ) : 2 ^ (8 * n) = 256 ^ n := by
  rw [pow_mul]
  rfl

theorem bswap_lt (n v : ℕ) : bswap n v < 256 ^ n := by
  have := ofBytes_lt (toBytes n v).reverse
  rwa [length_reverse, length_toBytes] at this

theorem place_self {n v : ℕ} (sys : Endian) (h : v < 256 ^ n) : place sys sys n v = BitVec.ofNat _ v := by
  rw [place, sys.order_order, ofBytes_toBytes, mod_eq_of_lt h]

theorem place_of_ne {sys o : Endian} (n v : ℕ) (h : o ≠ sys) :
    place sys o n v = BitVec.ofNat _ (bswap n v) := by
  cases sys <;> cases o <;> first | exact absurd rfl h | rfl

theorem toNat_ofNat_of_lt {n v : ℕ} (h : v < 256 ^ n) : (BitVec.ofNat (8 * n) v).toNat = v := by
  rw [toNat_ofNat, two_pow_eight_mul, mod_eq_of_lt h]

theorem outWord_eq {n v : ℕ} (h : v < 256 ^ n) : outWord n (decide (o = sys)) v = place sys o n v := by
  unfold outWord
  by_cases ho : o = sys
  · subst ho
    rw [if_pos (decide_eq_true rfl), place_self o h]
  · rw [if_neg (by simpa using ho), place_of_ne n v ho, Word.swap, toNat_ofNat_of_lt h]

theorem inWord_place {n v : ℕ} (h : v < 256 ^ n) : inWord (decide (o = sys)) (place sys o n v) = v := by
  unfold inWord
  by_cases ho : o = sys
  · subst ho
    rw [if_pos (decide_eq_true rfl), place_self o h, toNat_ofNat_of_lt h]
  · rw [if_neg (by simpa using ho), place_of_ne n v ho, Word.swap, toNat_ofNat_of_lt (bswap_lt n v),
      bswap_bswap h, toNat_ofNat_of_lt h]

theorem inWord_lt {n : ℕ} (native : Bool) (u : Word n) : inWord native u < 256 ^ n := by
  unfold inWord
  rw [← two_pow_eight_mul]
  split <;> exact isLt _

theorem place_inWord {n : ℕ} (u : Word n) : place sys o n (inWord (decide (o = sys)) u) = u := by
  have hu : u.toNat < 256 ^ n := two_pow_eight_mul n ▸ u.isLt
  unfold inWord
  by_cases ho : o = sys
  · subst ho
    rw [if_pos (decide_eq_true rfl), place_self o hu, ofNat_toNat, setWidth_eq]
  · rw [if_neg (by simpa using ho), place_of_ne _ _ ho, Word.swap, toNat_ofNat_of_lt (bswap_lt _ _),
      bswap_bswap hu, ofNat_toNat, setWidth_eq]

theorem place_byte {v : ℕ} (h : v < 256) : place sys o 1 v = BitVec.ofNat _ v := by
  by_cases ho : o = sys
  · subst ho
    exact place_self o h
  · have hb : bswap 1 v = v % 256 := ofBytes_toBytes 1 v
    rw [place_of_ne 1 v ho, hb, mod_eq_of_lt h]

theorem place_ne_zero {n v : ℕ} (h : v < 256 ^ n) (h0 : v ≠ 0) : place sys o n v ≠ 0 := by
  intro hz
  have hv := inWord_place sys o h
  have hswap : ofBytes (toBytes n 0).reverse = 0 := by
    have : ∀ l : List Byte, (∀ b ∈ l, b = 0) → ofBytes l = 0 := by
      intro l hl
      induction l with
      | nil => rfl
      | cons b l ih =>
        rw [ofBytes_cons, hl b mem_cons_self, ih fun c hc => hl c (mem_cons_of_mem b hc)]
        rfl
    refine this _ fun b hb => ?_
    have hall : ∀ n, ∀ b ∈ toBytes n 0, b = (0 : Byte) := by
      intro n
      induction n with
      | zero => simp [toBytes]
      | succ n ih => simpa [toBytes] using ih
    exact hall n b (mem_reverse.1 hb)
  rw [hz] at hv
  unfold inWord Word.swap bswap at hv
  split at hv
  · exact h0 (by simpa using hv.symm)
  · simp [hswap] at hv
    exact h0 hv.symm

/-! ## Forms -/

variable (c : Char)

def units8 : List ℕ := (String.utf8EncodeChar c).map UInt8.toNat

/-- In UTF-16. -/
def units16 : List ℕ :=
  if c.toNat < 0x10000 then [c.toNat]
  else [0xd800 + (c.toNat - 0x10000) / 0x400, 0xdc00 + (c.toNat - 0x10000) % 0x400]

/-- In UTF-32. -/
def units32 : List ℕ := [c.toNat]

theorem toNat_lt : c.toNat < 0x110000 := by
  have : c.toNat.isValidChar := c.valid
  omega

theorem not_surrogate : c.toNat < 0xd800 ∨ 0xdfff < c.toNat := by
  have : c.toNat.isValidChar := c.valid
  omega

section Utf8

variable {c : Char}

theorem units8_one (h : c.toNat ≤ 0x7f) : units8 c = [c.toNat] := by
  have : c.val.toNat ≤ 0x7f := h
  simp only [units8, String.utf8EncodeChar, if_pos this, map_cons, map_nil, UInt8.toNat_ofNat',
    cons.injEq, and_true]
  exact mod_eq_of_lt (by omega)

theorem units8_two (h : 0x7f < c.toNat) (h' : c.toNat ≤ 0x7ff) :
    units8 c = [0xc0 + c.toNat / 64, 0x80 + c.toNat % 64] := by
  have hv : c.val.toNat = c.toNat := rfl
  simp only [units8, String.utf8EncodeChar, hv, if_neg (not_le.2 h), if_pos h', map_cons,
    map_nil, UInt8.toNat_ofNat', cons.injEq, and_true]
  omega

theorem units8_three (h : 0x7ff < c.toNat) (h' : c.toNat ≤ 0xffff) :
    units8 c = [0xe0 + c.toNat / 4096, 0x80 + c.toNat / 64 % 64, 0x80 + c.toNat % 64] := by
  have hv : c.val.toNat = c.toNat := rfl
  simp only [units8, String.utf8EncodeChar, hv, if_neg (show ¬ c.toNat ≤ 0x7f by omega),
    if_neg (not_le.2 h), if_pos h', map_cons, map_nil, UInt8.toNat_ofNat',
    cons.injEq, and_true]
  omega

theorem units8_four (h : 0xffff < c.toNat) :
    units8 c = [0xf0 + c.toNat / 262144, 0x80 + c.toNat / 4096 % 64, 0x80 + c.toNat / 64 % 64,
      0x80 + c.toNat % 64] := by
  have hv : c.val.toNat = c.toNat := rfl
  have := toNat_lt c
  simp only [units8, String.utf8EncodeChar, hv, if_neg (show ¬ c.toNat ≤ 0x7f by omega),
    if_neg (show ¬ c.toNat ≤ 0x7ff by omega), if_neg (not_le.2 h), map_cons, map_nil,
    UInt8.toNat_ofNat', cons.injEq, and_true]
  omega

end Utf8

section Encode

variable (sys o : Endian) {n : ℕ} (units : Char → List ℕ)

/-- A scalar value in memory. -/
def encodeChar (n : ℕ) (c : Char) : List (Word n) := (units c).map (place sys o n)

/-- A text in memory. -/
def encode (n : ℕ) (s : List Char) : List (Word n) := s.flatMap (encodeChar sys o units n)

theorem encode_cons (s : List Char) :
    encode sys o units n (c :: s) = encodeChar sys o units n c ++ encode sys o units n s :=
  flatMap_cons ..

end Encode

/-! ## Stores -/

section Store

variable {m : ℕ}

/-- Units are stored one after the other. -/
def Out.pushAll (o : Out m) (l : List (Word m)) : Out m := l.foldl Out.push o

theorem Out.pushAll_append (o : Out m) (l k : List (Word m)) :
    o.pushAll (l ++ k) = (o.pushAll l).pushAll k :=
  foldl_append ..

@[simp] theorem Out.pushAll_len (o : Out m) (l : List (Word m)) : (o.pushAll l).len = o.len + l.length := by
  induction l generalizing o with
  | nil => rfl
  | cons u l ih =>
    show ((o.push u).pushAll l).len = _
    rw [ih, length_cons, show (o.push u).len = o.len + 1 from rfl]
    omega

theorem Out.pushAll_mem (o : Out m) (l : List (Word m)) (i : ℕ) : (o.pushAll l).mem i =
      if o.len ≤ i ∧ i < o.len + l.length then l.getD (i - o.len) 0 else o.mem i := by
  induction l generalizing o with
  | nil => exact (if_neg (by simp)).symm
  | cons u l ih =>
    have hlen : (o.push u).len = o.len + 1 := rfl
    show ((o.push u).pushAll l).mem i = _
    simp only [ih, hlen, show (o.push u).mem = update o.mem o.len u from rfl, length_cons]
    rcases Nat.lt_trichotomy i o.len with hlt | rfl | hgt
    · rw [if_neg (by omega), if_neg (by omega), update_of_ne (by omega)]
    · rw [if_neg (by omega), if_pos (by omega), update_self, Nat.sub_self, getD_cons_zero]
    · obtain ⟨k, rfl⟩ : ∃ k, i = o.len + (k + 1) := ⟨i - o.len - 1, by omega⟩
      rw [update_of_ne (by omega), show o.len + (k + 1) - (o.len + 1) = k by omega,
        Nat.add_sub_cancel_left, getD_cons_succ]
      refine if_congr ?_ rfl rfl
      omega

/-- A `put` stores a scalar value as `enc` if its units fit in `cap`. -/
def Stores (put : ℕ → Out m → Except Errno (Out m)) (cap : ℕ) (enc : Char → List (Word m)) : Prop :=
  ∀ c o, put c.toNat o =
    if o.len + (enc c).length ≤ cap then .ok (o.pushAll (enc c)) else .error .e2big

end Store

theorem room_eq {α : Type} {cap l k : ℕ} (x : α) : (if cap ≤ l + k then error Errno.e2big else ok x) =
      if l + (k + 1) ≤ cap then ok x else error Errno.e2big := by
  by_cases h : cap ≤ l + k
  · rw [if_pos h, if_neg (by omega)]
  · rw [if_neg h, if_pos (by omega)]

theorem stores_putU32 (cap : ℕ) :
    Stores (putU32 (decide (o = sys)) cap) cap (encodeChar sys o units32 4) := by
  intro c b
  have hc : c.toNat < 256 ^ 4 := (toNat_lt c).trans (by decide)
  unfold putU32
  rw [outWord_eq sys o hc]
  exact room_eq (k := 0) _

theorem stores_putU16 (cap : ℕ) :
    Stores (putU16 (decide (o = sys)) cap) cap (encodeChar sys o units16 2) := by
  intro c b
  have hc := toNat_lt c
  unfold putU16
  by_cases h : 0x10000 ≤ c.toNat
  · have hhi : (c.toNat - 0x10000) / 0x400 + 0xd800 < 256 ^ 2 := by omega
    have hlo : (c.toNat - 0x10000) % 0x400 + 0xdc00 < 256 ^ 2 := by omega
    have hu : encodeChar sys o units16 2 c = [place sys o 2 ((c.toNat - 0x10000) / 0x400 + 0xd800),
          place sys o 2 ((c.toNat - 0x10000) % 0x400 + 0xdc00)] := by
      simp only [encodeChar, units16, if_neg (not_lt.2 h), Nat.add_comm, map_cons, map_nil]
    simp only [if_pos h, hu, outWord_eq sys o hhi, outWord_eq sys o hlo]
    exact room_eq _
  · have hv : c.toNat < 256 ^ 2 := by omega
    have hu : encodeChar sys o units16 2 c = [place sys o 2 c.toNat] := by
      simp only [encodeChar, units16, if_pos (not_le.1 h), map_cons, map_nil]
    simp only [if_neg h, hu, outWord_eq sys o hv]
    exact room_eq (k := 0) _

theorem stores_putU16Checked (cap : ℕ) :
    Stores (putU16Checked (decide (o = sys)) cap) cap (encodeChar sys o units16 2) := by
  intro c b
  have hc := toNat_lt c
  unfold putU16Checked
  rw [if_neg (by omega)]
  exact stores_putU16 sys o cap c b

theorem marked_byte (v i k : ℕ) {marker mask : ℕ} (a : ℕ) (hm : marker = 2 ^ k * a)
    (h : mask >>> i = 2 ^ k - 1) : marker ||| (v &&& mask) >>> i = marker + v / 2 ^ i % 2 ^ k := by
  rw [shiftRight_and_distrib, h, and_two_pow_sub_one_eq_mod, shiftRight_eq_div_pow, hm]
  exact (two_pow_add_eq_or_of_lt (mod_lt _ (Nat.two_pow_pos k)) a).symm

theorem stores_putU8 (cap : ℕ) : Stores (putU8 cap) cap (encodeChar sys o units8 1) := by
  intro c b
  have hc := toNat_lt c
  unfold putU8
  have ht : 0x80 ||| c.toNat &&& 0x3f = 0x80 + c.toNat % 64 := by
    simpa using marked_byte c.toNat 0 6 2 rfl (show 0x3f >>> 0 = _ from rfl)
  have hm : 0x80 ||| (c.toNat &&& 0x00fc0) >>> 6 = 0x80 + c.toNat / 64 % 64 :=
    marked_byte c.toNat 6 6 2 rfl rfl
  have hm' : 0x80 ||| (c.toNat &&& 0x003f000) >>> 12 = 0x80 + c.toNat / 4096 % 64 :=
    marked_byte c.toNat 12 6 2 rfl rfl
  by_cases h1 : c.toNat ≤ 0x7f
  · have hu : encodeChar sys o units8 1 c = [BitVec.ofNat _ c.toNat] := by
      rw [encodeChar, units8_one h1, map_singleton, place_byte sys o (by omega)]
    simp only [if_pos h1, hu]
    exact room_eq (k := 0) _
  by_cases h2 : c.toNat ≤ 0x7ff
  · have hl : 0xc0 ||| (c.toNat &&& 0x07c0) >>> 6 = 0xc0 + c.toNat / 64 := by
      refine (marked_byte c.toNat 6 5 6 rfl rfl).trans ?_
      omega
    have hu : encodeChar sys o units8 1 c =
        [BitVec.ofNat _ (0xc0 + c.toNat / 64), BitVec.ofNat _ (0x80 + c.toNat % 64)] := by
      simp only [encodeChar, units8_two (not_le.1 h1) h2, map_cons, map_nil]
      rw [place_byte sys o (by omega), place_byte sys o (by omega)]
    simp only [if_neg h1, if_pos h2, hl, ht, hu]
    exact room_eq _
  by_cases h3 : c.toNat ≤ 0xffff
  · have hl : 0xe0 ||| (c.toNat &&& 0x0f000) >>> 12 = 0xe0 + c.toNat / 4096 := by
      refine (marked_byte c.toNat 12 4 14 rfl rfl).trans ?_
      omega
    have hu : encodeChar sys o units8 1 c =
        [BitVec.ofNat _ (0xe0 + c.toNat / 4096), BitVec.ofNat _ (0x80 + c.toNat / 64 % 64),
          BitVec.ofNat _ (0x80 + c.toNat % 64)] := by
      simp only [encodeChar, units8_three (not_le.1 h2) h3, map_cons, map_nil]
      rw [place_byte sys o (by omega), place_byte sys o (by omega), place_byte sys o (by omega)]
    simp only [if_neg h1, if_neg h2, if_pos h3, hl, hm, ht, hu]
    exact room_eq _
  · have hl : 0xf0 ||| (c.toNat &&& 0x01c0000) >>> 18 = 0xf0 + c.toNat / 262144 := by
      refine (marked_byte c.toNat 18 3 30 rfl rfl).trans ?_
      omega
    have hu : encodeChar sys o units8 1 c =
        [BitVec.ofNat _ (0xf0 + c.toNat / 262144), BitVec.ofNat _ (0x80 + c.toNat / 4096 % 64),
          BitVec.ofNat _ (0x80 + c.toNat / 64 % 64), BitVec.ofNat _ (0x80 + c.toNat % 64)] := by
      simp only [encodeChar, units8_four (not_le.1 h3), map_cons, map_nil]
      rw [place_byte sys o (by omega), place_byte sys o (by omega), place_byte sys o (by omega),
        place_byte sys o (by omega)]
    simp only [if_neg h1, if_neg h2, if_neg h3, if_pos (show c.toNat ≤ 0x10ffff by omega), hl, hm,
      hm', ht, hu]
    exact room_eq _

end Osol.Uconv
