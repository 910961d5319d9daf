import Osol.Zfs.Compress.Basic

/-!
# LZJB

What one item of `lzjb_compress` can be, and that `lzjb_decompress` reads it back. The flags
of an item are written when its seven neighbours may still be open, so the lemma about the
loop speaks of the destination as the loop leaves it, of which the flags up to the current
item are known.
-/

namespace Osol.Zfs.Compress

open Osol.Lib Function Nat

variable {addr : ℕ} {s : Buf} {sLen dLen : ℕ} {st : LzState}

/-! ## One item -/

theorem matchLen_spec (s : Buf) (src cpy n : ℕ) {mlen : ℕ}
    (h : ∀ k < mlen, s (src + k) = s (cpy + k)) :
    mlen ≤ matchLen s src cpy n mlen ∧ matchLen s src cpy n mlen ≤ mlen + n ∧
      ∀ k < matchLen s src cpy n mlen, s (src + k) = s (cpy + k) := by
  induction n generalizing mlen with
  | zero => exact ⟨le_rfl, le_rfl, h⟩
  | succ n ih =>
    unfold matchLen
    split
    · exact ⟨le_rfl, by omega, h⟩
    next heq =>
    have hstep : ∀ k < mlen + 1, s (src + k) = s (cpy + k) := by
      intro k hk
      by_cases hkm : k = mlen
      · subst hkm
        exact not_not.1 heq
      · exact h k (by omega)
    obtain ⟨h1, h2, h3⟩ := ih hstep
    exact ⟨by omega, by omega, h3⟩

structure Refers (s : Buf) (sLen src mlen offset : ℕ) : Prop where
  min : 3 ≤ mlen
  max : mlen ≤ 66
  fits : src + mlen ≤ sLen
  pos : 0 < offset
  lt : offset < 1024
  le : offset ≤ src
  same : ∀ k < mlen, s (src + k) = s (src - offset + k)

theorem lzItem_cases (addr : ℕ) (s : Buf) (sLen : ℕ) (st : LzState) :
    ∃ l, lzItem addr s sLen st = lzLiteral s { st with lempel := l } ∨
      ∃ mlen offset, lzItem addr s sLen st = lzReference { st with lempel := l } mlen offset ∧
        Refers s sLen st.src mlen offset := by
  unfold lzItem
  split
  · exact ⟨st.lempel, .inl rfl⟩
  simp only
  generalize hh : lzHash (s st.src) (s (st.src + 1)) (s (st.src + 2)) = h
  generalize hoff : (((addr + st.src : ℤ) - st.lempel h) % 1024).toNat = offset
  have hlt : offset < 1024 := by omega
  refine ⟨update st.lempel h ((addr + st.src) % 65536), ?_⟩
  split
  · next hc =>
    obtain ⟨h1, h2, h3, h4, h5⟩ := hc
    refine .inr ⟨_, offset, rfl, ?_⟩
    have hcpy : ((addr + st.src : ℤ) - offset - addr).toNat = st.src - offset := by omega
    rw [hcpy] at h3 h4 h5 ⊢
    have hthree : ∀ k < matchMin, s (st.src + k) = s (st.src - offset + k) := by
      intro k hk
      have : k = 0 ∨ k = 1 ∨ k = 2 := by
        unfold matchMin at hk
        omega
      rcases this with rfl | rfl | rfl
      · exact h3
      · exact h4
      · exact h5
    obtain ⟨hm1, hm2, hm3⟩ := matchLen_spec s st.src (st.src - offset) (matchMax - matchMin) hthree
    have hmm : matchMin = 3 ∧ matchMax = 66 := ⟨rfl, rfl⟩
    exact ⟨by omega, by omega, by omega, by omega, hlt, by omega, hm3⟩
  · exact .inl rfl

theorem reference_bytes {m o : ℕ} (hm : m < 64) (ho : o < 1024) :
    (BitVec.ofNat 8 ((m <<< 2) ||| (o >>> 8))).toNat = 4 * m + o / 256 ∧
    (BitVec.ofNat 8 o).toNat = o % 256 := by
  have hor : (m <<< 2) ||| (o >>> 8) = 4 * m + o / 256 := by
    rw [shiftRight_eq_div_pow, ← shiftLeft_add_eq_or_of_lt (by omega), shiftLeft_eq]
    omega
  rw [hor]
  exact ⟨mod_eq_of_lt (by omega), rfl⟩

theorem reference_offset {m o : ℕ} (ho : o < 1024) :
    (((4 * m + o / 256) <<< 8) ||| (o % 256)) &&& 1023 = o := by
  rw [← shiftLeft_add_eq_or_of_lt (by omega), shiftLeft_eq]
  rw [show 1023 = 2 ^ 10 - 1 from rfl, and_two_pow_sub_one_eq_mod]
  omega

theorem copyBack_spec {out : Buf} {offset : ℕ} (hoff : 0 < offset) (mlen src : ℕ)
    (hle : offset ≤ src) (hfit : src + mlen ≤ sLen) (hag : Agree src out s)
    (hsame : ∀ k < mlen, s (src + k) = s (src - offset + k)) :
    ∃ out', copyBack sLen mlen (src - offset) src out = (src + mlen, out') ∧ Agree (src + mlen) out' s := by
  induction mlen generalizing src out with
  | zero => exact ⟨out, rfl, hag⟩
  | succ mlen ih =>
    have hbyte : out (src - offset) = s src := by
      rw [hag _ (by omega)]
      exact (hsame 0 (by omega)).symm
    obtain ⟨out', h1, h2⟩ := ih (src + 1) (by omega) (by omega) (hag.write hbyte) fun k hk => by
      have := hsame (k + 1) (by omega)
      rw [show src + 1 + k = src + (k + 1) by omega,
        show src + 1 - offset + k = src - offset + (k + 1) by omega]
      exact this
    refine ⟨out', ?_, ?_⟩
    · unfold copyBack
      rw [if_pos (by omega), show src - offset + 1 = src + 1 - offset by omega, h1]
      rw [show src + 1 + mlen = src + (mlen + 1) by omega]
    · rwa [show src + (mlen + 1) = src + 1 + mlen by omega]

/-! ## The flags of a group -/

/-- `k` items of the current group are written. -/
structure Group (dLen k : ℕ) (st : LzState) : Prop where
  before : st.copymap < st.dst
  room : st.dst ≤ st.copymap + 1 + 2 * k
  fits : st.copymap + 17 < dLen
  clear : ∀ u, k ≤ u → (st.out st.copymap).getLsbD u = false

/-- The state between two iterations: no group yet, or `k` items of one. -/
def Between (dLen k : ℕ) (st : LzState) : Prop :=
  (k = 0 ∧ st.copymask = 128 ∧ st.dst = 0) ∨
    (0 < k ∧ k ≤ 8 ∧ st.copymask * 2 = 2 ^ k ∧ Group dLen k st)

/-- What is left at the end, in `F` with `r` bytes, of a state with `k` items in the group. -/
structure Final (dLen k : ℕ) (st : LzState) (r : ℕ) (F : Buf) : Prop where
  le : st.dst ≤ r
  bytes : ∀ x < st.dst, x ≠ st.copymap → F x = st.out x
  flags : ∀ u < k, (F st.copymap).getLsbD u = (st.out st.copymap).getLsbD u
  rest : ∀ x, dLen ≤ x → F x = st.out x

/-- The decompression has come to the same place. -/
structure Sync (F s : Buf) (st : LzState) (un : UnState) : Prop where
  src : un.src = st.dst
  dst : un.dst = st.src
  mask : un.copymask = st.copymask
  map : 0 < st.dst → un.copymap = F st.copymap
  out : Agree st.src un.out s

variable {k : ℕ}

theorem Between.dst_le (h : Between dLen k st) : st.dst ≤ dLen := by
  rcases h with ⟨-, -, h⟩ | ⟨-, h8, -, hg⟩
  · omega
  · have := hg.room
    have := hg.fits
    omega

theorem lzGroup_open {st1 : LzState} (hb : Between dLen k st) (h : lzGroup dLen st = some st1) :
    ∃ t < 8, st1.copymask = 2 ^ t ∧ Group dLen t st1 ∧ st1.src = st.src ∧
      (∀ r F, Final dLen t st1 r F → Final dLen k st r F) ∧
      ∀ r F G un, Final dLen t st1 r F → Agree r G F → Sync F s st un → Sync F s st1 (unGroup G un) := by
  unfold lzGroup at h
  split at h
  · next hmask =>
    split at h
    · simp at h
    next hroom =>
    have hst1 := (Option.some.inj h).symm
    subst hst1
    refine ⟨0, by omega, rfl, ⟨lt_succ_self _, le_rfl, Nat.lt_of_not_le hroom, ?_⟩, rfl, ?_, ?_⟩
    · simp
    · intro r F hF
      have hx : ∀ x < st.dst, F x = st.out x := by
        intro x hx
        rw [hF.bytes x (lt_succ_of_lt hx) (Nat.ne_of_lt hx)]
        exact update_of_ne (Nat.ne_of_lt hx) _ _
      refine ⟨le_of_succ_le hF.le, fun x hlt _ => hx x hlt, ?_, ?_⟩
      · intro u hu
        rcases hb with ⟨hk, -, -⟩ | ⟨-, -, -, hg⟩
        · omega
        · rw [hx _ hg.before]
      · intro x hle
        rw [hF.rest x hle]
        exact update_of_ne (by omega) _ _
    · intro r F G un hF hG hs
      have hle : st.dst + 1 ≤ r := hF.le
      unfold unGroup
      rw [if_pos (by rw [hs.mask, hmask])]
      refine ⟨by simp [hs.src], hs.dst, rfl, fun _ => ?_, hs.out⟩
      rw [hs.src]
      exact hG _ (by omega)
  · next hmask =>
    have hst1 := (Option.some.inj h).symm
    subst hst1
    rcases hb with ⟨-, hm, -⟩ | ⟨hk, hk8, hm, hg⟩
    · omega
    have h8 : k ≠ 8 := by
      rintro rfl
      exact hmask hm
    refine ⟨k, by omega, hm, ⟨hg.before, hg.room, hg.fits, hg.clear⟩, rfl, ?_, ?_⟩
    · intro r F hF
      exact ⟨hF.le, hF.bytes, hF.flags, hF.rest⟩
    · intro r F G un hF hG hs
      unfold unGroup
      rw [if_neg (by rw [hs.mask]; exact hmask)]
      exact ⟨hs.src, hs.dst, by simp [hs.mask], hs.map, hs.out⟩

theorem flag_iff (b : Byte) (t : ℕ) : b.toNat &&& 2 ^ t ≠ 0 ↔ b.getLsbD t = true := by
  rw [and_two_pow, BitVec.getLsbD]
  cases b.toNat.testBit t <;> simp

/-- Item `t` leads from `st` to `st1` and can be read back. -/
structure Written (s : Buf) (sLen dLen t : ℕ) (st st1 : LzState) : Prop where
  between : Between dLen (t + 1) st1
  lt : st.src < st1.src
  le : st1.src ≤ sLen
  final : ∀ r F, Final dLen (t + 1) st1 r F → Final dLen t st r F
  read : ∀ r F G un, Final dLen (t + 1) st1 r F → Agree r G F → Sync F s st un →
    ∃ un1, unItem G sLen un = some un1 ∧ Sync F s st1 un1

variable {t : ℕ}

theorem lzLiteral_written (ht : t < 8) (hmask : st.copymask = 2 ^ t)
    (hg : Group dLen t st) (hsrc : st.src < sLen) :
    Written s sLen dLen t st (lzLiteral s st) := by
  obtain ⟨hbef, hroom, hfits, hclear⟩ := hg
  have hmap : (lzLiteral s st).out st.copymap = st.out st.copymap := update_of_ne (Nat.ne_of_lt hbef) _ _
  refine ⟨.inr ⟨by omega, by omega, ?_, ?_⟩, lt_succ_self _, hsrc, ?_, ?_⟩
  · show st.copymask * 2 = _
    rw [hmask, pow_succ]
  · refine ⟨lt_succ_of_lt hbef, ?_, hfits, fun u hu => ?_⟩
    · show st.dst + 1 ≤ st.copymap + 1 + 2 * (t + 1)
      omega
    · show ((lzLiteral s st).out st.copymap).getLsbD u = false
      rw [hmap]
      exact hclear u (by omega)
  · intro r F hF
    refine ⟨le_of_succ_le hF.le, fun x hx hne => ?_, fun u hu => ?_, fun x hx => ?_⟩
    · rw [hF.bytes x (lt_succ_of_lt hx) hne]
      exact update_of_ne (Nat.ne_of_lt hx) _ _
    · rw [← hmap]
      exact hF.flags u (lt_succ_of_lt hu)
    · rw [hF.rest x hx]
      exact update_of_ne (by omega) _ _
  · intro r F G un hF hG hs
    have hflag : (F st.copymap).getLsbD t = false := by
      refine (hF.flags t (lt_succ_self t)).trans ?_
      show ((lzLiteral s st).out st.copymap).getLsbD t = false
      rw [hmap]
      exact hclear t (Nat.le_refl t)
    have hle : st.dst + 1 ≤ r := hF.le
    have hbyte : G un.src = s un.dst := by
      rw [hs.src, hs.dst, hG _ (by omega), hF.bytes _ (Nat.lt_add_one _) (Nat.ne_of_gt hbef)]
      exact update_self ..
    refine ⟨{ un with src := un.src + 1, dst := un.dst + 1, out := update un.out un.dst (s un.dst) }, ?_, ?_⟩
    · unfold unItem
      rw [if_neg, hbyte]
      rw [hs.map (by omega), hs.mask, hmask, flag_iff, hflag]
      exact Bool.false_ne_true
    · refine ⟨by simp [hs.src, lzLiteral], by simp [hs.dst, lzLiteral], hs.mask,
        fun _ => hs.map (by omega), ?_⟩
      rw [hs.dst]
      exact hs.out.write rfl

theorem lzReference_written {mlen offset : ℕ} (ht : t < 8) (hmask : st.copymask = 2 ^ t)
    (hg : Group dLen t st) (hR : Refers s sLen st.src mlen offset) :
    Written s sLen dLen t st (lzReference st mlen offset) := by
  obtain ⟨hbef, hroom, hfits, hclear⟩ := hg
  have hmin := hR.min
  have hmax := hR.max
  -- the four places of the destination a reference is concerned with
  have hmap : (lzReference st mlen offset).out st.copymap =
    st.out st.copymap ||| BitVec.ofNat 8 (2 ^ t) := by
    unfold lzReference
    simp only
    rw [update_of_ne (by omega), update_of_ne (by omega), update_self, hmask]
  have hother : ∀ x, x ≠ st.copymap → x ≠ st.dst → x ≠ st.dst + 1 →
      (lzReference st mlen offset).out x = st.out x := by
    intro x h1 h2 h3
    unfold lzReference
    simp only
    rw [update_of_ne h3, update_of_ne h2, update_of_ne h1]
  have hfst : (lzReference st mlen offset).out st.dst =
      BitVec.ofNat 8 (((mlen - matchMin) <<< 2) ||| (offset >>> 8)) := by
    unfold lzReference
    simp only
    rw [update_of_ne (by omega), update_self]
  have hsnd : (lzReference st mlen offset).out (st.dst + 1) = BitVec.ofNat 8 offset := update_self ..
  have hbit : ∀ u, (st.out st.copymap ||| BitVec.ofNat 8 (2 ^ t)).getLsbD u =
      ((st.out st.copymap).getLsbD u || decide (u = t)) := by
    intro u
    rw [BitVec.getLsbD_or, BitVec.getLsbD_ofNat, testBit_two_pow]
    by_cases hu : u = t
    · subst hu
      simp [ht]
    · simp [hu, Ne.symm hu]
  refine ⟨.inr ⟨by omega, by omega, ?_, ?_⟩, ?_, hR.fits, ?_, ?_⟩
  · show st.copymask * 2 = _
    rw [hmask, pow_succ]
  · refine ⟨?_, ?_, hfits, fun u hu => ?_⟩
    · show st.copymap < st.dst + 2
      omega
    · show st.dst + 2 ≤ st.copymap + 1 + 2 * (t + 1)
      omega
    · show ((lzReference st mlen offset).out st.copymap).getLsbD u = false
      rw [hmap, hbit, hclear u (by omega)]
      simp
      omega
  · show st.src < st.src + mlen
    omega
  · intro r F hF
    have hle : st.dst + 2 ≤ r := hF.le
    refine ⟨by omega, fun x hx hne => ?_, fun u hu => ?_, fun x hx => ?_⟩
    · rw [hF.bytes x (Nat.lt_add_right 2 hx) hne]
      exact hother x hne (by omega) (by omega)
    · refine (hF.flags u (by omega)).trans ?_
      show ((lzReference st mlen offset).out st.copymap).getLsbD u = _
      rw [hmap, hbit]
      simp [Nat.ne_of_lt hu]
    · rw [hF.rest x hx]
      exact hother x (by omega) (by omega) (by omega)
  · intro r F G un hF hG hs
    have hle : st.dst + 2 ≤ r := hF.le
    have hflag : (F st.copymap).getLsbD t = true := by
      refine (hF.flags t (lt_succ_self t)).trans ?_
      show ((lzReference st mlen offset).out st.copymap).getLsbD t = true
      rw [hmap, hbit]
      simp
    obtain ⟨hb1, hb2⟩ := reference_bytes (m := mlen - 3) (by omega) hR.lt
    have hG1 : (G un.src).toNat = 4 * (mlen - 3) + offset / 256 := by
      rw [hs.src, hG _ (by omega), hF.bytes _ (by show _ < st.dst + 2; omega)
        (Nat.ne_of_gt hbef), hfst]
      exact hb1
    have hG2 : (G (un.src + 1)).toNat = offset % 256 := by
      rw [hs.src, hG _ (by omega), hF.bytes _ (Nat.lt_add_one _) (by show _ ≠ st.copymap; omega), hsnd]
      exact hb2
    have hlen : ((G un.src).toNat >>> 2) + matchMin = mlen := by
      unfold matchMin
      have := hR.lt
      omega
    obtain ⟨out', hcopy, hag⟩ := copyBack_spec hR.pos mlen st.src hR.le hR.fits hs.out hR.same
    refine ⟨{ un with src := un.src + 2, dst := st.src + mlen, out := out' }, ?_, ?_⟩
    · unfold unItem
      rw [if_pos, hlen, hG1, hG2, reference_offset hR.lt, hs.dst, if_neg (by have := hR.le; omega), hcopy]
      rwa [hs.map (by omega), hs.mask, hmask, flag_iff]
    · exact ⟨by simp [hs.src, lzReference], rfl, hs.mask, fun _ => hs.map (by omega), hag⟩

theorem Written.of_lempel {st1 : LzState} {l : ℕ → ℕ}
    (h : Written s sLen dLen t { st with lempel := l } st1) : Written s sLen dLen t st st1 := by
  obtain ⟨h1, h2, h3, h4, h5⟩ := h
  refine ⟨h1, h2, h3, fun r F hF => ?_, fun r F G un hF hG hs => ?_⟩
  · obtain ⟨a, b, c, d⟩ := h4 r F hF
    exact ⟨a, b, c, d⟩
  · exact h5 r F G un hF hG ⟨hs.src, hs.dst, hs.mask, hs.map, hs.out⟩

theorem lzItem_written (addr : ℕ) (ht : t < 8) (hmask : st.copymask = 2 ^ t) (hg : Group dLen t st)
    (hsrc : st.src < sLen) : Written s sLen dLen t st (lzItem addr s sLen st) := by
  obtain ⟨l, hitem⟩ := lzItem_cases addr s sLen st
  have hg' : Group dLen t { st with lempel := l } := ⟨hg.before, hg.room, hg.fits, hg.clear⟩
  refine Written.of_lempel (l := l) ?_
  rcases hitem with hlit | ⟨mlen, offset, href, hR⟩
  · rw [hlit]
    exact lzLiteral_written ht hmask hg' hsrc
  · rw [href]
    exact lzReference_written ht hmask hg' hR

/-! ## The loop -/

/-- What the loop returns for a state, and that `lzjb_decompress` goes on to the end from the
same place. -/
structure ReadBack (s : Buf) (sLen dLen k : ℕ) (st : LzState) (r : ℕ) (F : Buf) : Prop where
  final : Final dLen k st r F
  le : r ≤ dLen
  pos : st.src < sLen → 0 < r
  read : ∀ G un m, Agree r G F → Sync F s st un → sLen ≤ st.src + m →
    ∃ out, unLoop G sLen m un = (0, out) ∧ Agree sLen out s

theorem readBack_end (hb : Between dLen k st) (hsrc : st.src = sLen) :
    ReadBack s sLen dLen k st st.dst st.out := by
  refine ⟨⟨le_rfl, fun _ _ _ => rfl, fun _ _ => rfl, fun _ _ => rfl⟩, hb.dst_le, by omega, ?_⟩
  intro G un m _ hs _
  refine ⟨un.out, ?_, hsrc ▸ hs.out⟩
  cases m with
  | zero => rfl
  | succ m =>
    unfold unLoop
    rw [if_neg (by rw [hs.dst]; omega)]

theorem lzLoop_readBack {n r : ℕ} {F : Buf} (hb : Between dLen k st) (hle : st.src ≤ sLen)
    (hn : sLen ≤ st.src + n) (hr : lzLoop addr s sLen dLen n st = (r, F)) (hlt : r < sLen) :
    ReadBack s sLen dLen k st r F := by
  induction n generalizing st k with
  | zero =>
    cases hr
    exact readBack_end hb (by omega)
  | succ n ih =>
    unfold lzLoop at hr
    by_cases hsrc : st.src < sLen
    · rw [if_pos hsrc] at hr
      cases hgr : lzGroup dLen st with
      | none =>
        rw [hgr] at hr
        obtain ⟨rfl, -⟩ := Prod.mk.inj hr
        omega
      | some st1 =>
        rw [hgr] at hr
        obtain ⟨t, ht, hmask, hg, hs1, hfin, hread⟩ := lzGroup_open hb hgr
        have hw := lzItem_written (s := s) addr ht hmask hg (hs1 ▸ hsrc)
        have hlt1 := hw.lt
        obtain ⟨hF, hrd, -, hrest⟩ := ih hw.between hw.le (by omega) hr
        have hF1 := hw.final r F hF
        refine ⟨hfin r F hF1, hrd, fun _ => Nat.lt_of_lt_of_le (zero_lt_of_lt hg.before) hF1.le,
          fun G un m hG hs hm => ?_⟩
        obtain ⟨un1, hun, hs2⟩ := hw.read r F G _ hF hG (hread r F G un hF1 hG hs)
        cases m with
        | zero => omega
        | succ m =>
          obtain ⟨out, hout, hag⟩ := hrest G un1 m hG hs2 (by omega)
          refine ⟨out, ?_, hag⟩
          unfold unLoop
          rwa [if_pos (by rw [hs.dst]; exact hsrc), hun]
    · rw [if_neg hsrc] at hr
      cases hr
      exact readBack_end hb (by omega)

/-- `lzjb_compress` that returns less than the source keeps to the destination, and the first
`r` bytes it leaves there decompress to the source. -/
theorem lzjbCompress_readBack {dst F : Buf} {r : ℕ}
    (hr : lzjbCompress addr s dst sLen dLen = (r, F)) (hlt : r < sLen) :
    0 < r ∧ r ≤ dLen ∧ (∀ x, dLen ≤ x → F x = dst x) ∧
      ∀ G out, Agree r G F → ∃ out', lzjbDecompress G out sLen = (0, out') ∧ Agree sLen out' s := by
  obtain ⟨hF, hle, hpos, hread⟩ := lzLoop_readBack (.inl ⟨rfl, rfl, rfl⟩) (Nat.zero_le _)
    (Nat.le_add_left _ _) hr hlt
  refine ⟨hpos (zero_lt_of_lt hlt), hle, hF.rest, fun G out hG => ?_⟩
  refine hread G _ sLen hG ⟨rfl, rfl, rfl, fun h => absurd h (Nat.lt_irrefl 0), ?_⟩
    (Nat.le_add_left _ _)
  intro x hx
  exact absurd hx (Nat.not_lt_zero x)

end Osol.Zfs.Compress
