import Osol.Zfs.Compress.Basic

/-!
# ZLE

Each run loop with where it stops and what it wrote, and the loops of `zle_compress` and
`zle_decompress` chunk by chunk.
-/

namespace Osol.Zfs.Compress

open Osol.Lib Function

variable {s : Buf} {sEnd dEnd lim : ℕ}

/-! ## Runs -/

theorem zeroRun_spec (s : Buf) (stop n src : ℕ) : src ≤ zeroRun s stop n src ∧
      zeroRun s stop n src ≤ src + n ∧ zeroRun s stop n src ≤ max src stop ∧
      (∀ x, src ≤ x → x < zeroRun s stop n src → s x = 0) ∧
      (0 < n → src < stop → s src = 0 → src < zeroRun s stop n src) := by
  induction n generalizing src with
  | zero =>
    unfold zeroRun
    exact ⟨Nat.le_refl _, Nat.le_refl _, Nat.le_max_left _ _, by omega, by omega⟩
  | succ n ih =>
    unfold zeroRun
    split
    · next h =>
      obtain ⟨h1, h2, h3, h4, -⟩ := ih (src + 1)
      refine ⟨by omega, by omega, by omega, fun x hx hlt => ?_, by omega⟩
      by_cases hxs : x = src
      · rw [hxs]
        exact h.2
      · exact h4 x (by omega) hlt
    · next h =>
      exact ⟨Nat.le_refl _, by omega, Nat.le_max_left _ _, by omega, fun _ h1 h2 => absurd ⟨h1, h2⟩ h⟩

/-- `len` bytes of the source from `src` on stand in `out'` from `dst` on; the rest is as
in `out`. -/
def Literal (s : Buf) (src dst len : ℕ) (out out' : Buf) : Prop :=
  ∀ x, out' x = if dst ≤ x ∧ x < dst + len then s (src + (x - dst)) else out x

theorem Literal.none (s : Buf) (src dst : ℕ) (out : Buf) : Literal s src dst 0 out out := by
  intro x
  rw [if_neg (by omega)]

variable {src dst len : ℕ} {out out' : Buf}

theorem Literal.cons (h : Literal s (src + 1) (dst + 1) len (update out dst (s src)) out') :
    Literal s src dst (len + 1) out out' := by
  intro x
  rw [h x]
  by_cases hx : x = dst
  · subst hx
    rw [if_neg (by omega), if_pos (by omega), update_self, Nat.sub_self, Nat.add_zero]
  · rw [update_of_ne hx]
    by_cases hin : dst + 1 ≤ x ∧ x < dst + 1 + len
    · rw [if_pos hin, if_pos (by omega), show src + 1 + (x - (dst + 1)) = src + (x - dst) by omega]
    · rw [if_neg hin, if_neg (by omega)]

theorem Literal.snoc (h : Literal s src dst len out out') :
    Literal s src dst (len + 1) out (update out' (dst + len) (s (src + len))) := by
  intro x
  by_cases hx : x = dst + len
  · subst hx
    rw [update_self, if_pos (by omega), Nat.add_sub_cancel_left]
  · rw [update_of_ne hx, h x]
    by_cases hin : dst ≤ x ∧ x < dst + len
    · rw [if_pos hin, if_pos (by omega)]
    · rw [if_neg hin, if_neg (by omega)]

theorem literalRun_spec (s : Buf) (stop n src dst : ℕ) (out : Buf) :
    ∃ len out', literalRun s stop n src dst out = (src + len, dst + len, out') ∧
      Literal s src dst len out out' ∧ src + len < max (src + 1) stop := by
  induction n generalizing src dst out with
  | zero => exact ⟨0, out, rfl, Literal.none s src dst out, by omega⟩
  | succ n ih =>
    unfold literalRun
    split
    · obtain ⟨len, out', h1, h2, h3⟩ := ih (src + 1) (dst + 1) (update out dst (s src))
      refine ⟨len + 1, out', ?_, h2.cons, by omega⟩
      rw [h1, show src + 1 + len = src + (len + 1) by omega, show dst + 1 + len = dst + (len + 1) by omega]
    · exact ⟨0, out, rfl, Literal.none s src dst out, by omega⟩

theorem literalChunk_spec (n dst : ℕ) (out : Buf) {stop : ℕ} (hlt : src < stop) (hne : s src ≠ 0) :
    ∃ r len out', literalRun s stop n src dst out = r ∧
    literalLast s r.1 r.2.1 r.2.2 = (src + len, dst + len, out') ∧
      Literal s src dst len out out' ∧ 0 < len ∧ src + len ≤ stop := by
  obtain ⟨len, out', h1, h2, h3⟩ := literalRun_spec s stop n src dst out
  unfold literalLast
  by_cases hlast : s (src + len) = 0
  · refine ⟨_, len, out', h1, by rw [if_neg (not_not.2 hlast)], h2, ?_, by omega⟩
    rcases Nat.eq_zero_or_pos len with rfl | hpos
    · exact absurd hlast hne
    · exact hpos
  · exact ⟨_, len + 1, _, h1, by rw [if_pos hlast]; rfl, h2.snoc, by omega, by omega⟩

theorem copyRun_spec (s : Buf) (len src dst : ℕ) (out : Buf) :
    Literal s src dst len out (copyRun s len src dst out) := by
  induction len generalizing src dst out with
  | zero => exact Literal.none s src dst out
  | succ len ih => exact (ih (src + 1) (dst + 1) _).cons

theorem fillRun_spec (len dst : ℕ) (out : Buf) (x : ℕ) :
    fillRun len dst out x = if dst ≤ x ∧ x < dst + len then 0 else out x := by
  induction len generalizing dst out with
  | zero =>
    rw [if_neg (by omega)]
    rfl
  | succ len ih =>
    unfold fillRun
    rw [ih]
    by_cases hx : x = dst
    · subst hx
      rw [if_neg (by omega), if_pos (by omega), update_self]
    · rw [update_of_ne hx]
      by_cases hin : dst + 1 ≤ x ∧ x < dst + 1 + len
      · rw [if_pos hin, if_pos (by omega)]
      · rw [if_neg hin, if_neg (by omega)]

/-! ## Chunks -/

/-- The place `zle_compress` ended at, `d` bytes of `F`, seen from `src` and `dst`: the bytes
written stay, and `zle_decompress` goes on to the end from here. -/
structure ZleBack (s : Buf) (sEnd dEnd lim src dst : ℕ) (out : Buf) (d : ℕ) (F : Buf) : Prop where
  le : dst ≤ d
  fits : d ≤ dEnd
  pos : src < sEnd → 0 < d
  bytes : Agree dst F out
  rest : ∀ x, dEnd ≤ x → F x = out x
  read : ∀ G gLen o m, Agree d G F → d ≤ gLen → Agree src o s → sEnd ≤ src + m →
    ∃ o', unzleLoop G gLen sEnd lim m dst src o = (sEnd, o') ∧ Agree sEnd o' s

variable {d : ℕ} {F : Buf}

theorem zleBack_end (hfits : d ≤ dEnd) : ZleBack s sEnd dEnd lim sEnd d F d F := by
  refine ⟨Nat.le_refl _, hfits, by omega, fun _ _ => rfl, fun _ _ => rfl, fun G gLen o m _ _ ho _ => ?_⟩
  refine ⟨o, ?_, ho⟩
  cases m with
  | zero => rfl
  | succ m =>
    unfold unzleLoop
    rw [if_neg (by omega)]

theorem zleBack_zeroes (hlen : 0 < len)
    (hmax : len ≤ 256 - lim) (hsrc : src + len ≤ sEnd) (hdst : dst < dEnd)
    (hz : ∀ x, src ≤ x → x < src + len → s x = 0) (h : ZleBack s sEnd dEnd lim (src + len) (dst + 1)
      (update out dst (BitVec.ofNat 8 (len - 1 + lim))) d F) :
    ZleBack s sEnd dEnd lim src dst out d F := by
  obtain ⟨h1, h2, -, h3, h4, h5⟩ := h
  refine ⟨by omega, h2, by omega, fun x hx => ?_, fun x hx => ?_, fun G gLen o m hG hd ho hm => ?_⟩
  · rw [h3 x (by omega), update_of_ne (by omega)]
  · rw [h4 x hx, update_of_ne (by omega)]
  have hbyte : (G dst).toNat = len - 1 + lim := by
    rw [hG dst (by omega), h3 dst (by omega), update_self]
    exact Nat.mod_eq_of_lt (by omega)
  cases m with
  | zero => omega
  | succ m =>
    unfold unzleLoop
    rw [if_pos (by omega), hbyte, if_neg (by omega), show 1 + (len - 1 + lim) - lim = len by omega]
    refine h5 G gLen _ m hG hd (fun x hx => ?_) (by omega)
    rw [fillRun_spec]
    by_cases hxs : src ≤ x
    · rw [if_pos ⟨hxs, hx⟩, hz x hxs hx]
    · rw [if_neg (by omega)]
      exact ho x (by omega)

theorem zleBack_literal (hlim : lim ≤ 256) (hlen : 0 < len)
    (hmax : len ≤ lim) (hsrc : src + len ≤ sEnd) (hl : Literal s src (dst + 1) len out out')
    (h : ZleBack s sEnd dEnd lim (src + len) (dst + 1 + len)
      (update out' dst (BitVec.ofNat 8 (len - 1))) d F) :
    ZleBack s sEnd dEnd lim src dst out d F := by
  obtain ⟨h1, h2, -, h3, h4, h5⟩ := h
  refine ⟨by omega, h2, by omega, fun x hx => ?_, fun x hx => ?_, fun G gLen o m hG hd ho hm => ?_⟩
  · rw [h3 x (by omega), update_of_ne (by omega), hl x, if_neg (by omega)]
  · rw [h4 x hx, update_of_ne (by omega), hl x, if_neg (by omega)]
  have hbyte : (G dst).toNat = len - 1 := by
    rw [hG dst (by omega), h3 dst (by omega), update_self]
    exact Nat.mod_eq_of_lt (by omega)
  cases m with
  | zero => omega
  | succ m =>
    unfold unzleLoop
    rw [if_pos (by omega), hbyte, if_pos (by omega), show 1 + (len - 1) = len by omega]
    refine h5 G gLen _ m hG hd (fun x hx => ?_) (by omega)
    rw [copyRun_spec G len (dst + 1) src o x]
    by_cases hxs : src ≤ x
    · rw [if_pos ⟨hxs, hx⟩, hG _ (by omega), h3 _ (by omega), update_of_ne (by omega),
        hl _, if_pos (by omega), show src + (dst + 1 + (x - src) - (dst + 1)) = x by omega]
    · rw [if_neg (by omega)]
      exact ho x (by omega)

/-! ## The loop -/

theorem zleLoop_back {n : ℕ} (hlim : 0 < lim) (hlim' : lim < 256)
    (hsrc : src ≤ sEnd) (hdst : dst ≤ dEnd)
    (hr : zleLoop s sEnd dEnd lim n src dst out = (sEnd, d, F)) :
    ZleBack s sEnd dEnd lim src dst out d F := by
  induction n generalizing src dst out with
  | zero =>
    obtain ⟨rfl, rfl, rfl⟩ := hr
    exact zleBack_end hdst
  | succ n ih =>
    unfold zleLoop at hr
    split at hr
    · next hguard =>
      simp only at hr
      split at hr
      · next hzero =>
        obtain ⟨h1, h2, h3, h4, h5⟩ := zeroRun_spec s (min (src + (256 - lim)) sEnd) (256 - lim) src
        have hpos := h5 (by omega) (by omega) hzero
        obtain ⟨len, hlen⟩ := Nat.exists_eq_add_of_le h1
        rw [hlen] at hr h2 h3 h4 hpos
        rw [show src + len - src - 1 + lim = len - 1 + lim by omega] at hr
        exact zleBack_zeroes (by omega) (by omega) (by omega) (by omega) h4
          (ih (by omega) (by omega) hr)
      · next hne =>
        split at hr
        · simp only [Prod.mk.injEq] at hr
          omega
        obtain ⟨r, len, out', hrun, hlast, hl, hpos, hle⟩ :=
          literalChunk_spec lim (dst + 1) out
            (show src < min (src + lim) sEnd by omega) hne
        rw [hrun, hlast] at hr
        simp only [Nat.add_sub_cancel_left] at hr
        exact zleBack_literal (by omega) hpos (by omega) (by omega) hl (ih (by omega) (by omega) hr)
    · obtain ⟨rfl, rfl, rfl⟩ := hr
      exact zleBack_end hdst

theorem zleCompress_readBack {sLen dLen r : ℕ} {dst : Buf} (hlim : 0 < lim) (hlim' : lim < 256)
    (hr : zleCompress s dst sLen dLen lim = (r, F)) (hlt : r < sLen) :
    0 < r ∧ r ≤ dLen ∧ (∀ x, dLen ≤ x → F x = dst x) ∧ ∀ G gLen out, Agree r G F → r ≤ gLen →
        ∃ out', zleDecompress G out gLen sLen lim = (0, out') ∧ Agree sLen out' s := by
  unfold zleCompress at hr
  generalize hl : zleLoop s sLen dLen lim sLen 0 0 dst = l at hr
  obtain ⟨src, d, out⟩ := l
  simp only [Prod.mk.injEq] at hr
  obtain ⟨hd, rfl⟩ := hr
  have hsrc : src = sLen := by
    by_contra hne
    rw [if_neg hne] at hd
    omega
  rw [if_pos hsrc] at hd
  subst hd hsrc
  obtain ⟨-, h2, hpos, -, h4, h5⟩ := zleLoop_back hlim hlim' (Nat.zero_le _) (Nat.zero_le _) hl
  refine ⟨hpos (Nat.zero_lt_of_lt hlt), h2, h4, fun G gLen out0 hG hle => ?_⟩
  obtain ⟨o', h6, h7⟩ := h5 G gLen out0 src hG hle (fun x hx => absurd hx (Nat.not_lt_zero x))
    (Nat.le_add_left _ _)
  refine ⟨o', ?_, h7⟩
  unfold zleDecompress
  rw [h6]
  simp

end Osol.Zfs.Compress
