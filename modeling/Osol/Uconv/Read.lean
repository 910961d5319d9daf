import Osol.Uconv.Encoding

/-!
# Readers

Each loop of the model reads the encoding of a character at the front of its input as that
character, whatever it does with it. A loop that ends without an error, and does not stop at
a null, has read an encoded text. Nothing here depends on `put`, except that the loop over
UTF-32 leaves the range of a character to it.
-/

namespace Osol.Uconv

open Osol.Lib List Nat Prod Except

variable {m : ℕ} {put : ℕ → Out m → Except Errno (Out m)} {sys o : Endian}

variable {v : ℕ}

theorem exists_char (h : v < 0xd800 ∨ 0xdfff < v) (h' : v < 0x110000) : ∃ c : Char, c.toNat = v := by
  have hv : v.isValidChar := by omega
  exact ⟨Char.ofNatAux v hv, rfl⟩

/-- A reader takes the encoding of a character at the front for that character. -/
structure Reads {n : ℕ} (put : ℕ → Out m → Except Errno (Out m)) (stop : Bool)
    (enc : Char → List (Word n)) (read : List (Word n) → ℕ → Out m → Except Errno ℕ × Out m) :
    Prop where
  nil : ∀ l b, read [] l b = (.ok l, b)
  char : ∀ (c : Char) us l b, (stop → c.toNat ≠ 0) →
    read (enc c ++ us) l b = store put c.toNat b (read us (l + (enc c).length))

/-- What is read without an error is an encoded text. -/
def Sound {n : ℕ} (enc : Char → List (Word n))
    (read : List (Word n) → ℕ → Out m → Except Errno ℕ × Out m) : Prop :=
  ∀ us l b k, (read us l b).1 = .ok k → ∃ s : List Char, us = s.flatMap enc

variable {k : ℕ}

theorem store_ok {b : Out m} {next : Out m → Except Errno ℕ × Out m}
    (h : (store put v b next).1 = .ok k) : ∃ b', put v b = .ok b' ∧ (next b').1 = .ok k := by
  unfold store at h
  split at h
  · cases h
  · next b' hb => exact ⟨b', hb, h⟩

/-! ## UTF-32 -/

theorem place_not_null {n : ℕ} {stop : Bool} (hv : v < 256 ^ n) (h : stop → v ≠ 0) :
    ¬ (place sys o n v = 0 ∧ stop = true) :=
  fun ⟨hz, hs⟩ => place_ne_zero sys o hv (h hs) hz

theorem reads_readU32 (stop : Bool) :
    Reads put stop (encodeChar sys o units32 4) (readU32 put (decide (o = sys)) stop) where
  nil _ _ := rfl
  char c us l b h := by
    have hc : c.toNat < 256 ^ 4 := (toNat_lt c).trans (by decide)
    show readU32 put _ stop (place sys o 4 c.toNat :: us) l b = _
    rw [readU32, if_neg (place_not_null hc h), inWord_place sys o hc]
    rfl

variable {l : ℕ}

theorem readU32_text {us : List (Word 4)} {b : Out m}
    (hput : ∀ v b b', put v b = .ok b' → v ≤ 0x10ffff)
    (hus : ∀ u ∈ us, ¬ (0xd800 ≤ inWord (decide (o = sys)) u ∧ inWord (decide (o = sys)) u ≤ 0xdfff))
    (h : (readU32 put (decide (o = sys)) false us l b).1 = .ok k) :
    ∃ s : List Char, us = encode sys o units32 4 s := by
  induction us generalizing l b with
  | nil => exact ⟨[], rfl⟩
  | cons u us ih =>
    rw [readU32, if_neg (by simp)] at h
    obtain ⟨b', hb, h⟩ := store_ok h
    have hu := hus u mem_cons_self
    have hmax := hput _ _ _ hb
    obtain ⟨c, hc⟩ := exists_char (v := inWord (decide (o = sys)) u) (by omega) (by omega)
    obtain ⟨s, rfl⟩ := ih (fun w hw => hus w (mem_cons_of_mem u hw)) h
    refine ⟨c :: s, ?_⟩
    rw [encode_cons, encodeChar, units32, hc, map_singleton, place_inWord]
    rfl

/-! ## UTF-16 -/

theorem reads_readU16 (stop : Bool) : Reads put stop (encodeChar sys o units16 2)
      (fun us l => readU16 put (decide (o = sys)) stop us l 0) where
  nil _ _ := rfl
  char c us l b h := by
    have hmax := toNat_lt c
    have hsur := not_surrogate c
    by_cases hc : c.toNat < 0x10000
    · have hlt : c.toNat < 256 ^ 2 := hc
      have hu : encodeChar sys o units16 2 c = [place sys o 2 c.toNat] := by
        simp only [encodeChar, units16, if_pos hc, map_cons, map_nil]
      rw [hu, singleton_append, readU16, if_neg (place_not_null hlt h)]
      simp only [inWord_place sys o hlt]
      rw [if_neg (by omega), if_neg (by omega), if_neg (by omega)]
      rfl
    · have hhi : 0xd800 + (c.toNat - 0x10000) / 0x400 < 256 ^ 2 := by omega
      have hlo : 0xdc00 + (c.toNat - 0x10000) % 0x400 < 256 ^ 2 := by omega
      have hu : encodeChar sys o units16 2 c = [place sys o 2 (0xd800 + (c.toNat - 0x10000) / 0x400),
            place sys o 2 (0xdc00 + (c.toNat - 0x10000) % 0x400)] := by
        simp only [encodeChar, units16, if_neg hc, map_cons, map_nil]
      have hpair : (((0xd800 + (c.toNat - 0x10000) / 0x400 - 0xd800) * 0x400 +
          (0xdc00 + (c.toNat - 0x10000) % 0x400) - 0xdc00) &&& 0xfffff) + 0x10000 = c.toNat := by
        have hand := and_two_pow_sub_one_eq_mod ((0xd800 + (c.toNat - 0x10000) / 0x400 - 0xd800) *
          0x400 + (0xdc00 + (c.toNat - 0x10000) % 0x400) - 0xdc00) 20
        norm_num at hand ⊢
        omega
      rw [hu, cons_append, singleton_append, readU16, if_neg (place_not_null hhi fun _ => by omega)]
      simp only [inWord_place sys o hhi]
      rw [if_pos (by omega), if_neg (by simp), readU16, if_neg (place_not_null hlo fun _ => by omega)]
      simp only [inWord_place sys o hlo]
      rw [if_neg (by omega), if_pos (by omega), if_neg (by omega), hpair]
      rfl

variable {hi : ℕ}

theorem readU16_text {us : List (Word 2)} {b : Out m} (hhi : hi = 0 ∨ (0xd800 ≤ hi ∧ hi ≤ 0xdbff))
    (h : (readU16 put (decide (o = sys)) false us l hi b).1 = .ok k) :
    ∃ s : List Char, (if hi = 0 then us else place sys o 2 hi :: us) = encode sys o units16 2 s := by
  induction us generalizing l hi b with
  | nil =>
    rw [readU16] at h
    by_cases hz : hi = 0
    · exact ⟨[], if_pos hz⟩
    · rw [if_pos hz] at h
      cases h
  | cons u us ih =>
    have hu := place_inWord sys o u
    have hlt := inWord_lt (decide (o = sys)) u
    rw [readU16, if_neg (by simp)] at h
    simp only at h
    split at h
    · next hhigh =>
      split at h
      · cases h
      · obtain ⟨s, hs⟩ := ih (Or.inr hhigh) h
        rw [if_neg (by omega), hu] at hs
        exact ⟨s, by rw [if_pos (by omega), hs]⟩
    split at h
    · split at h
      · cases h
      next hz =>
      obtain ⟨b', -, h⟩ := store_ok h
      obtain ⟨s, hs⟩ := ih (Or.inl rfl) h
      rw [if_pos rfl] at hs
      obtain ⟨c, hc⟩ := exists_char
        (v := 0x10000 + (hi - 0xd800) * 0x400 + (inWord (decide (o = sys)) u - 0xdc00))
        (by omega) (by omega)
      refine ⟨c :: s, ?_⟩
      have hfst : 0xd800 + (c.toNat - 0x10000) / 0x400 = hi := by omega
      have hsnd : 0xdc00 + (c.toNat - 0x10000) % 0x400 = inWord (decide (o = sys)) u := by omega
      rw [if_neg hz, encode_cons, encodeChar, units16, if_neg (by omega), hfst, hsnd, hs]
      simp only [map_cons, map_nil, hu]
      rfl
    · split at h
      · cases h
      obtain ⟨b', -, h⟩ := store_ok h
      obtain ⟨s, hs⟩ := ih (Or.inl rfl) h
      rw [if_pos rfl] at hs
      obtain ⟨c, hc⟩ := exists_char (v := inWord (decide (o = sys)) u) (by omega)
        (by norm_num at hlt; omega)
      refine ⟨c :: s, ?_⟩
      rw [if_pos (by omega), encode_cons, encodeChar, units16,
        if_pos (by norm_num at hlt; omega), hc, hs, map_singleton, hu]
      rfl

theorem sound_readU16 : Sound (encodeChar sys o units16 2)
      (fun us l => readU16 put (decide (o = sys)) false us l 0) := by
  intro us l b k h
  obtain ⟨s, hs⟩ := readU16_text (Or.inl rfl) h
  exact ⟨s, hs⟩

/-! ## UTF-8 -/

theorem remainingBytesTbl_eq : ∀ b < 256, remainingBytesTbl.getD b 0 =
    if b < 0xc2 then 0 else if b < 0xe0 then 1 else if b < 0xf0 then 2 else if b < 0xf5 then 3
    else 0 := by
  decide +kernel

theorem validMin2ndByte_eq : ∀ b < 0xf5, 0xc2 ≤ b → validMin2ndByte.getD b 0 =
    if b = 0xe0 then 0xa0 else if b = 0xf0 then 0x90 else 0x80 := by
  decide +kernel

theorem validMax2ndByte_eq : ∀ b < 0xf5, 0xc2 ≤ b → validMax2ndByte.getD b 0 =
    if b = 0xed then 0x9f else if b = 0xf4 then 0x8f else 0xbf := by
  decide +kernel

/-- What a byte after the first must be; `f` is the first byte for the second one, and 0 after. -/
def Follows (f : ℕ) (b : Word 1) : Prop :=
  if f ≠ 0 then validMin2ndByte.getD f 0 ≤ b.toNat ∧ b.toNat ≤ validMax2ndByte.getD f 0
  else 0x80 ≤ b.toNat ∧ b.toNat ≤ 0xbf

variable {b : Word 1} {r f : ℕ} {bs : List (Word 1)}

theorem collect_succ_cons (h : Follows f b) :
    collect (r + 1) f hi (b :: bs) l = collect r 0 (hi * 64 + b.toNat % 64) bs (l + 1) := by
  have hacc : hi <<< 6 ||| b.toNat &&& 0x3f = hi * 64 + b.toNat % 64 := by
    have hm : b.toNat &&& 0x3f = b.toNat % 64 := and_two_pow_sub_one_eq_mod _ 6
    rw [hm, ← shiftLeft_add_eq_or_of_lt (mod_lt _ (by decide)), shiftLeft_eq]
  unfold Follows at h
  simp only [collect, hacc]
  split at h
  · next hf => rw [if_pos hf, if_neg (by omega)]
  · next hf => rw [if_neg hf, if_neg (by omega)]

theorem collect_succ_ok {x : ℕ × List (Word 1) × ℕ} (h : collect (r + 1) f hi bs l = .ok x) :
    ∃ b bs', bs = b :: bs' ∧ Follows f b ∧ collect r 0 (hi * 64 + b.toNat % 64) bs' (l + 1) = .ok x := by
  cases bs with
  | nil => simp [collect] at h
  | cons b bs =>
    have hfol : Follows f b := by
      by_contra hn
      unfold Follows at hn
      simp only [collect] at h
      split at h
      · next hf =>
        rw [if_pos hf] at hn
        rw [if_pos (by omega)] at h
        cases h
      · next hf =>
        rw [if_neg hf] at hn
        rw [if_pos (by omega)] at h
        cases h
    rw [collect_succ_cons hfol] at h
    exact ⟨b, bs, rfl, hfol, h⟩

/-- The first of `r + 2` bytes, of which `k` bits belong to the character. -/
theorem readChar_lead (k : ℕ) (hr : remainingBytesTbl.getD b.toNat 0 = r + 1)
    (hk : u8MasksTbl.getD (r + 1) 0 = 2 ^ k - 1) (bs : List (Word 1)) (l : ℕ) :
    readChar b bs l = collect (r + 1) b.toNat (b.toNat % 2 ^ k) bs (l + 1) := by
  have hlead : 0x7f < b.toNat := by
    by_contra hn
    rw [remainingBytesTbl_eq _ (by omega), if_pos (by omega)] at hr
    exact absurd hr.symm (succ_ne_zero r)
  simp only [readChar, if_pos hlead, hr, if_neg (succ_ne_zero r), hk, and_two_pow_sub_one_eq_mod]

theorem follows_lead (hf : 0xc2 ≤ f) (hf' : f < 0xf5) (hb : b.toNat = v)
    (hv : 0x80 ≤ v ∧ v ≤ 0xbf) (h : (f = 0xe0 → 0xa0 ≤ v) ∧ (f = 0xf0 → 0x90 ≤ v) ∧
      (f = 0xed → v ≤ 0x9f) ∧ (f = 0xf4 → v ≤ 0x8f)) : Follows f b := by
  unfold Follows
  rw [if_pos (by omega), validMin2ndByte_eq _ hf' hf, validMax2ndByte_eq _ hf' hf, hb]
  split_ifs <;> omega

theorem readChar_encodeChar (sys o : Endian) (c : Char) (us : List (Word 1)) (l : ℕ) :
    ∃ b bs, encodeChar sys o units8 1 c ++ us = b :: bs ∧ (c.toNat ≠ 0 → b ≠ 0) ∧
      readChar b bs l = .ok (c.toNat, us, l + (encodeChar sys o units8 1 c).length) := by
  have hmax := toNat_lt c
  have hsur := not_surrogate c
  have hb : ∀ v < 256, (place sys o 1 v).toNat = v := by
    intro v hv
    rw [place_byte sys o hv]
    exact toNat_ofNat_of_lt hv
  have hne : ∀ v < 256, v ≠ 0 → place sys o 1 v ≠ 0 := fun v hv => place_ne_zero sys o hv
  have hfol : ∀ v, Follows 0 (place sys o 1 (0x80 + v % 64)) := by
    intro v
    unfold Follows
    rw [if_neg (by simp), hb _ (by omega)]
    omega
  unfold encodeChar
  by_cases h1 : c.toNat ≤ 0x7f
  · rw [units8_one h1]
    refine ⟨_, us, rfl, hne _ (by omega), ?_⟩
    simp only [readChar, hb c.toNat (by omega), if_neg (not_lt.2 h1)]
    rfl
  by_cases h2 : c.toNat ≤ 0x7ff
  · have hlead := hb (0xc0 + c.toNat / 64) (by omega)
    have hr : remainingBytesTbl.getD (0xc0 + c.toNat / 64) 0 = 1 := by
      rw [remainingBytesTbl_eq _ (by omega), if_neg (by omega), if_pos (by omega)]
    rw [units8_two (not_le.1 h1) h2]
    refine ⟨_, place sys o 1 (0x80 + c.toNat % 64) :: us, rfl, fun _ => hne _ (by omega) (by omega), ?_⟩
    rw [readChar_lead 5 (by rw [hlead, hr]) rfl, hlead,
      collect_succ_cons (follows_lead (by omega) (by omega) (hb _ (by omega)) (by omega) (by omega)),
      collect, hb _ (by omega)]
    simp only [ok.injEq, mk.injEq]
    exact ⟨by omega, trivial, rfl⟩
  by_cases h3 : c.toNat ≤ 0xffff
  · have hlead := hb (0xe0 + c.toNat / 4096) (by omega)
    have hr : remainingBytesTbl.getD (0xe0 + c.toNat / 4096) 0 = 2 := by
      rw [remainingBytesTbl_eq _ (by omega), if_neg (by omega), if_neg (by omega), if_pos (by omega)]
    rw [units8_three (not_le.1 h2) h3]
    refine ⟨_, place sys o 1 (0x80 + c.toNat / 64 % 64) :: place sys o 1 (0x80 + c.toNat % 64) :: us,
      rfl, fun _ => hne _ (by omega) (by omega), ?_⟩
    rw [readChar_lead 4 (by rw [hlead, hr]) rfl, hlead,
      collect_succ_cons (follows_lead (by omega) (by omega) (hb _ (by omega)) (by omega) (by omega)),
      collect_succ_cons (hfol _), collect, hb _ (by omega), hb _ (by omega)]
    simp only [ok.injEq, mk.injEq]
    exact ⟨by omega, trivial, rfl⟩
  · have hlead := hb (0xf0 + c.toNat / 262144) (by omega)
    have hr : remainingBytesTbl.getD (0xf0 + c.toNat / 262144) 0 = 3 := by
      rw [remainingBytesTbl_eq _ (by omega), if_neg (by omega), if_neg (by omega),
        if_neg (by omega), if_pos (by omega)]
    rw [units8_four (not_le.1 h3)]
    refine ⟨_, place sys o 1 (0x80 + c.toNat / 4096 % 64) ::
      place sys o 1 (0x80 + c.toNat / 64 % 64) :: place sys o 1 (0x80 + c.toNat % 64) :: us,
      rfl, fun _ => hne _ (by omega) (by omega), ?_⟩
    rw [readChar_lead 3 (by rw [hlead, hr]) rfl, hlead,
      collect_succ_cons (follows_lead (by omega) (by omega) (hb _ (by omega)) (by omega) (by omega)),
      collect_succ_cons (hfol _), collect_succ_cons (hfol _), collect, hb _ (by omega),
      hb _ (by omega), hb _ (by omega)]
    simp only [ok.injEq, mk.injEq]
    exact ⟨by omega, trivial, rfl⟩

theorem reads_readU8 (stop : Bool) : Reads put stop (encodeChar sys o units8 1) (readU8 put stop) where
  nil l b := by rw [readU8]
  char c us l b h := by
    obtain ⟨x, xs, hx, hx0, hread⟩ := readChar_encodeChar sys o c us l
    rw [hx, readU8, if_neg fun hz => hx0 (h hz.2) hz.1]
    split
    · next e he =>
      rw [hread] at he
      cases he
    · next he =>
      rw [hread] at he
      cases he
      rfl

theorem readChar_ok (sys o : Endian) {rest : List (Word 1)}
    (h : readChar b bs l = .ok (v, rest, k)) :
    ∃ c : Char, b :: bs = encodeChar sys o units8 1 c ++ rest := by
  have hb := b.isLt
  have hplace : ∀ (x : Word 1) v, x.toNat = v → place sys o 1 v = x := by
    rintro x _ rfl
    rw [place_byte sys o x.isLt, BitVec.ofNat_toNat, BitVec.setWidth_eq]
  have hfol : ∀ {x : Word 1}, Follows 0 x → 0x80 ≤ x.toNat ∧ x.toNat ≤ 0xbf := id
  by_cases h1 : b.toNat ≤ 0x7f
  · simp only [readChar, if_neg (not_lt.2 h1), ok.injEq, mk.injEq] at h
    obtain ⟨-, rfl, -⟩ := h
    obtain ⟨c, hc⟩ := exists_char (v := b.toNat) (by omega) (by omega)
    refine ⟨c, ?_⟩
    rw [encodeChar, units8_one (by omega), map_singleton, hplace b _ hc.symm]
    rfl
  have hr := remainingBytesTbl_eq b.toNat hb
  have hlow : 0xc2 ≤ b.toNat ∧ b.toNat < 0xf5 := by
    by_contra hn
    have hz : remainingBytesTbl.getD b.toNat 0 = 0 := by
      rw [hr]
      split_ifs <;> omega
    simp only [readChar, if_pos (not_le.1 h1), hz, if_pos] at h
    cases h
  have hsecond : ∀ {x : Word 1}, Follows b.toNat x → (0x80 ≤ x.toNat ∧ x.toNat ≤ 0xbf) ∧
      (b.toNat = 0xe0 → 0xa0 ≤ x.toNat) ∧ (b.toNat = 0xf0 → 0x90 ≤ x.toNat) ∧
      (b.toNat = 0xed → x.toNat ≤ 0x9f) ∧ (b.toNat = 0xf4 → x.toNat ≤ 0x8f) := by
    intro x hx
    unfold Follows at hx
    rw [if_pos (by omega), validMin2ndByte_eq _ hlow.2 hlow.1, validMax2ndByte_eq _ hlow.2 hlow.1] at hx
    split_ifs at hx <;> omega
  by_cases h2 : b.toNat < 0xe0
  · rw [if_neg (by omega), if_pos h2] at hr
    rw [readChar_lead 5 hr rfl] at h
    obtain ⟨x, xs, rfl, hx, h⟩ := collect_succ_ok h
    have hx := hsecond hx
    cases h
    obtain ⟨c, hc⟩ := exists_char (v := b.toNat % 32 * 64 + x.toNat % 64) (by omega) (by omega)
    refine ⟨c, ?_⟩
    simp only [encodeChar, units8_two (c := c) (by omega) (by omega), map_cons, map_nil]
    rw [hplace b _ (by omega), hplace x _ (by omega)]
    rfl
  by_cases h3 : b.toNat < 0xf0
  · rw [if_neg (by omega), if_neg h2, if_pos h3] at hr
    rw [readChar_lead 4 hr rfl] at h
    obtain ⟨x, xs, rfl, hx, h⟩ := collect_succ_ok h
    obtain ⟨y, ys, rfl, hy, h⟩ := collect_succ_ok h
    have hx := hsecond hx
    have hy := hfol hy
    cases h
    obtain ⟨c, hc⟩ := exists_char (v := (b.toNat % 16 * 64 + x.toNat % 64) * 64 + y.toNat % 64)
      (by omega) (by omega)
    refine ⟨c, ?_⟩
    simp only [encodeChar, units8_three (c := c) (by omega) (by omega), map_cons, map_nil]
    rw [hplace b _ (by omega), hplace x _ (by omega), hplace y _ (by omega)]
    rfl
  · rw [if_neg (by omega), if_neg h2, if_neg h3, if_pos hlow.2] at hr
    rw [readChar_lead 3 hr rfl] at h
    obtain ⟨x, xs, rfl, hx, h⟩ := collect_succ_ok h
    obtain ⟨y, ys, rfl, hy, h⟩ := collect_succ_ok h
    obtain ⟨z, zs, rfl, hz, h⟩ := collect_succ_ok h
    have hx := hsecond hx
    have hy := hfol hy
    have hz := hfol hz
    cases h
    obtain ⟨c, hc⟩ := exists_char
      (v := ((b.toNat % 8 * 64 + x.toNat % 64) * 64 + y.toNat % 64) * 64 + z.toNat % 64)
      (by omega) (by omega)
    refine ⟨c, ?_⟩
    simp only [encodeChar, units8_four (c := c) (by omega), map_cons, map_nil]
    rw [hplace b _ (by omega), hplace x _ (by omega), hplace y _ (by omega), hplace z _ (by omega)]
    rfl

theorem sound_readU8 : Sound (encodeChar sys o units8 1) (readU8 put false) := by
  intro us
  induction hn : us.length using Nat.strong_induction_on generalizing us with
  | _ n ih =>
    intro l b k h
    cases us with
    | nil => exact ⟨[], rfl⟩
    | cons x xs =>
      rw [readU8, if_neg (by simp)] at h
      split at h
      · cases h
      next v rest u8l hread =>
      obtain ⟨b', -, h⟩ := store_ok h
      have hlen := readChar_length_le hread
      obtain ⟨c, hc⟩ := readChar_ok sys o hread
      obtain ⟨s, rfl⟩ := ih rest.length (by rw [← hn]; exact lt_succ_of_le hlen) rest rfl _ _ _ h
      exact ⟨c :: s, hc⟩

end Osol.Uconv
