import Mathlib

/-!
# Times without division

`hrt2ts` and `hrt2tv` of `timers.c` divide by a sum of shifts that is a bit too small, and correct it
in a loop. Words of 32 bits wrap, shifts are quotients and products, and a loop that goes on after
the iterations it is given is `none`.
-/

namespace Osol.Timers

open Option Int

/-- The conversion to `uint32_t`. -/
def uint32 (x : ℤ) : ℤ := x % 2 ^ 32

/-- The conversion to a `time_t`, a `long` of `w` bits. -/
def timeT (w : ℕ) (x : ℤ) : ℤ := x.bmod (2 ^ w)

def nanosec : ℤ := 1000000000

/-- The number of seconds, from the bits above the lowest 30. -/
def guess (tmp : ℤ) : ℤ :=
  let sec := uint32 (tmp - tmp / 2 ^ 2)
  let sec := uint32 (tmp - sec / 2 ^ 5)
  let sec := uint32 (tmp + sec / 2 ^ 1)
  let sec := uint32 (tmp - sec / 2 ^ 6 + 7)
  let sec := uint32 (tmp - sec / 2 ^ 3)
  let sec := uint32 (tmp + sec / 2 ^ 1)
  let sec := uint32 (tmp + sec / 2 ^ 3)
  uint32 (tmp + sec / 2 ^ 4)

def mul125 (x : ℤ) : ℤ := x * 2 ^ 7 - x - x - x

/-- The clean-up loop. -/
def cleanUp : ℕ → ℤ → ℤ → Option (ℤ × ℤ)
  | 0, sec, nsec => if nsec < nanosec then some (sec, nsec) else none
  | n + 1, sec, nsec =>
    if nsec < nanosec then some (sec, nsec) else cleanUp n (uint32 (sec + 1)) (uint32 (nsec - nanosec))

/-- `sec` and `nsec` after the loop, with which `hrt2ts` and `hrt2tv` both begin. -/
def secNsec (n : ℕ) (hrt : ℤ) : Option (ℤ × ℤ) :=
  let sec := guess (uint32 (hrt / 2 ^ 30))
  let tmp := uint32 (mul125 sec)
  let tmp := uint32 (mul125 tmp)
  let tmp := uint32 (mul125 tmp)
  cleanUp n sec (uint32 (uint32 hrt - uint32 (tmp * 2 ^ 9)))

/-- `tv_sec` and `tv_nsec` of a time. -/
def hrt2ts (w n : ℕ) (hrt : ℤ) : Option (ℤ × ℤ) :=
  (secNsec n hrt).map fun (sec, nsec) => (timeT w sec, nsec)

def ts2hrt (tsp : ℤ × ℤ) : ℤ := mul125 (mul125 (mul125 tsp.1)) * 2 ^ 9 + tsp.2

/-- The division by 1000. -/
def usec (nsec : ℤ) : ℤ :=
  let t := uint32 (nsec / 2 ^ 7 + nsec / 2 ^ 8 + nsec / 2 ^ 12)
  let q := uint32 (nsec / 2 ^ 1 + t + nsec / 2 ^ 15 + t / 2 ^ 11 + t / 2 ^ 14)
  let q := q / 2 ^ 9
  let r := uint32 (nsec - q * 1000)
  uint32 (q + uint32 (r + 24) / 2 ^ 10)

/-- `tv_sec` and `tv_usec` of a time. -/
def hrt2tv (w n : ℕ) (hrt : ℤ) : Option (ℤ × ℤ) :=
  (secNsec n hrt).map fun (sec, nsec) => (timeT w sec, usec nsec)

variable {x y hrt sec nsec : ℤ} {w n : ℕ}

theorem uint32_eq (h : x = y := by omega) (h0 : 0 ≤ y := by omega) (hy : y < 2 ^ 32 := by omega) :
    uint32 x = y := by
  rw [h]
  exact emod_eq_of_lt h0 hy

theorem uint32_of_lt (h0 : 0 ≤ x := by omega) (h : x < 2 ^ 32 := by omega) :
    uint32 x = x := uint32_eq rfl h0 h

theorem uint32_nonneg (x : ℤ) : 0 ≤ uint32 x := emod_nonneg _ (by decide)

theorem uint32_le (h0 : 0 ≤ x) : uint32 x ≤ x := by
  unfold uint32
  omega

/-- A `time_t` of 32 or 64 bits has the number that an `uint32_t` has if it has room for it. -/
theorem timeT_eq_iff (hw : w = 32 ∨ w = 64) (h0 : 0 ≤ sec) (hsec : sec < 2 ^ 32) :
    timeT w sec = sec ↔ sec < 2 ^ (w - 1) := by
  rcases hw with rfl | rfl <;> simp only [timeT, bmod_def] <;> omega

theorem timeT_le (hw : w = 32 ∨ w = 64) (h0 : 0 ≤ sec) (hsec : sec < 2 ^ 32) : timeT w sec ≤ sec := by
  rcases hw with rfl | rfl <;> simp only [timeT, bmod_def] <;> omega

/-! ## The guess -/

/-- The first two differences. -/
theorem guess_begin (h0 : 0 ≤ x) (hx : x < 2 ^ 32) :
    uint32 (x - uint32 (x - x / 2 ^ 2) / 2 ^ 5) = (125 * x + 124) / 128 := by
  rw [show uint32 (x - x / 2 ^ 2) = (3 * x + 3) / 4 from uint32_eq]
  exact uint32_eq

/-- The guess rounds down once. -/
theorem guess_eq (h0 : 0 ≤ x) (hx : x < 2885857291) : guess x = (36028797 * x + 124) / 2 ^ 25 := by
  have f3 : uint32 (x + (125 * x + 124) / 128 / 2 ^ 1) = (381 * x + 124) / 256 := uint32_eq
  have f4 : uint32 (x - (381 * x + 124) / 256 / 2 ^ 6 + 7) = (16003 * x + 130947) / 16384 := uint32_eq
  have f5 : uint32 (x - (16003 * x + 130947) / 16384 / 2 ^ 3) = (115069 * x + 124) / 131072 := uint32_eq
  have f6 : uint32 (x + (115069 * x + 124) / 131072 / 2 ^ 1) = (377213 * x + 124) / 262144 := uint32_eq
  have f7 : uint32 (x + (377213 * x + 124) / 262144 / 2 ^ 3) = (2474365 * x + 124) / 2097152 := uint32_eq
  simp only [guess, guess_begin h0 (show x < 2 ^ 32 by omega), f3, f4, f5, f6, f7]
  exact uint32_eq

/-- The guess is never too large. It would be one of a few numbers whose products with `5 ^ 9` are
just above a multiple of `2 ^ 21`, and these are not small. -/
theorem guess_bounds (h0 : 0 ≤ x) (hx : x < 2885857291) :
    guess x * 10 ^ 9 ≤ x * 2 ^ 30 ∧ (x + 1) * 2 ^ 30 ≤ guess x * 10 ^ 9 + 2 ^ 32 := by
  have hk := guess_eq h0 hx
  generalize guess x = k at *
  refine ⟨?_, by omega⟩
  by_contra hlt
  obtain ⟨y, hy⟩ : ∃ y, k * 5 ^ 9 = x * 2 ^ 21 + y := ⟨k * 5 ^ 9 - x * 2 ^ 21, by omega⟩
  have h1 : 1 ≤ y := by omega
  have h7 : y ≤ 7 := by omega
  have hsmall : 0 ≤ k ∧ k < 8000 := by omega
  have hinv : k % 2 ^ 21 = 957549 * y % 2 ^ 21 := by omega
  clear hk hlt hy
  interval_cases y <;> omega

/-- Once the third step wraps, the guess is too small by more than the loop can add. -/
theorem guess_short (h : 2885857291 ≤ x) (hx : x < 4000000000) : (guess x + 5) * 10 ^ 9 ≤ x * 2 ^ 30 := by
  have f3 : uint32 (x + (125 * x + 124) / 128 / 2 ^ 1) = (381 * x + 124) / 256 - 2 ^ 32 := by
    rw [show x + (125 * x + 124) / 128 / 2 ^ 1 = (381 * x + 124) / 256 by omega]
    unfold uint32
    omega
  have f4 : uint32 (x - ((381 * x + 124) / 256 - 2 ^ 32) / 2 ^ 6 + 7) =
      (16003 * x + 130947) / 16384 + 2 ^ 26 := uint32_eq
  have f5 : uint32 (x - ((16003 * x + 130947) / 16384 + 2 ^ 26) / 2 ^ 3) =
      (115069 * x + 124) / 131072 - 2 ^ 23 := uint32_eq
  simp only [guess, guess_begin (show 0 ≤ x by omega) (show x < 2 ^ 32 by omega), f3, f4, f5]
  -- the last three steps wrap or not, which makes the guess smaller only
  generalize hy : (115069 * x + 124) / 131072 - 2 ^ 23 = y
  have f6 := uint32_le (show 0 ≤ x + y / 2 ^ 1 by omega)
  have f6' := uint32_nonneg (x + y / 2 ^ 1)
  generalize uint32 (x + y / 2 ^ 1) = z at *
  have f7 := uint32_le (show 0 ≤ x + z / 2 ^ 3 by omega)
  have f7' := uint32_nonneg (x + z / 2 ^ 3)
  generalize uint32 (x + z / 2 ^ 3) = u at *
  have f8 := uint32_le (show 0 ≤ x + u / 2 ^ 4 by omega)
  omega

theorem cleanUp_le {r : ℤ × ℤ} (hs : 0 ≤ sec) (h : cleanUp n sec nsec = some r) :
    0 ≤ r.1 ∧ r.1 ≤ sec + n := by
  induction n generalizing sec nsec with
  | zero =>
    rw [cleanUp] at h
    split at h
    · cases h
      exact ⟨hs, by simp⟩
    · cases h
  | succ n ih =>
    rw [cleanUp] at h
    split at h
    · cases h
      exact ⟨hs, by simp; omega⟩
    · have := ih (uint32_nonneg _) h
      have := uint32_le (show 0 ≤ sec + 1 by omega)
      rw [Nat.cast_add_one]
      omega

theorem cleanUp_eq {q : ℕ} (hq : q ≤ n) (h0 : 0 ≤ nsec) (h : nsec < 10 ^ 9)
    (hn : q * 10 ^ 9 + nsec < 2 ^ 32) (hs : 0 ≤ sec) (hsec : sec + q < 2 ^ 32) :
    cleanUp n sec (q * 10 ^ 9 + nsec) = some (sec + q, nsec) := by
  induction q generalizing n sec with
  | zero =>
    have hlt : nsec < nanosec := h
    cases n <;> simp [cleanUp, hlt]
  | succ q ih =>
    obtain ⟨n, rfl⟩ : ∃ m, n = m + 1 := ⟨n - 1, by omega⟩
    rw [Nat.cast_add_one] at hn hsec ⊢
    have hrest : uint32 ((q + 1) * 10 ^ 9 + nsec - nanosec) = q * 10 ^ 9 + nsec :=
      uint32_eq (by unfold nanosec; ring)
    rw [cleanUp, if_neg (by unfold nanosec; omega), uint32_of_lt (show 0 ≤ sec + 1 by omega), hrest,
      ih (by omega) (by omega) (by omega) (by omega), add_right_comm, add_assoc]

theorem usec_eq (h0 : 0 ≤ nsec) (h : nsec < 10 ^ 9) : usec nsec = nsec / 1000 := by
  have ht : uint32 (nsec / 2 ^ 7 + nsec / 2 ^ 8 + nsec / 2 ^ 12) =
      nsec / 2 ^ 7 + nsec / 2 ^ 8 + nsec / 2 ^ 12 := uint32_of_lt
  simp only [usec, ht]
  generalize hy : nsec / 2 ^ 7 + nsec / 2 ^ 8 + nsec / 2 ^ 12 = y
  have hy0 : 0 ≤ y := by omega
  have h1 : 4096 * y ≤ 49 * nsec := by omega
  have h2 : 49 * nsec ≤ 4096 * y + 3 * 4096 := by omega
  rw [uint32_eq rfl (show 0 ≤ nsec / 2 ^ 1 + y + nsec / 2 ^ 15 + y / 2 ^ 11 +
    y / 2 ^ 14 by positivity) (by omega)]
  generalize hq : (nsec / 2 ^ 1 + y + nsec / 2 ^ 15 + y / 2 ^ 11 + y / 2 ^ 14) / 2 ^ 9 = q
  obtain ⟨h3, h4⟩ : q * 1000 ≤ nsec ∧ nsec < q * 1000 + 2000 := by constructor <;> omega
  clear hy hq h1 h2
  rw [uint32_of_lt (show 0 ≤ nsec - q * 1000 by omega),
    uint32_of_lt (show 0 ≤ nsec - q * 1000 + 24 by omega)]
  refine uint32_eq ?_ (by omega) (by omega)
  obtain ⟨e, rfl⟩ : ∃ e, nsec = q * 1000 + e := ⟨nsec - q * 1000, by omega⟩
  rcases lt_or_ge e 1000 with he | he <;> omega

/-! ## The conversions -/

theorem secNsec_eq (h0 : 0 ≤ hrt) (h : hrt < 2885857291 * 2 ^ 30) :
    secNsec 4 hrt = some (hrt / 10 ^ 9, hrt % 10 ^ 9) := by
  have ht : uint32 (hrt / 2 ^ 30) = hrt / 2 ^ 30 := uint32_of_lt
  simp only [secNsec, ht]
  obtain ⟨hle, hge⟩ := guess_bounds (show 0 ≤ hrt / 2 ^ 30 by omega) (by omega)
  have hg : 0 ≤ guess (hrt / 2 ^ 30) := uint32_nonneg _
  generalize guess (hrt / 2 ^ 30) = sec at *
  obtain ⟨q, hq⟩ : ∃ q : ℕ, hrt / 10 ^ 9 = sec + q := ⟨(hrt / 10 ^ 9 - sec).toNat, by omega⟩
  have hrest : uint32 (uint32 hrt - uint32 (uint32 (mul125 (uint32 (mul125 (uint32 (mul125 sec))))) *
      2 ^ 9)) = q * 10 ^ 9 + hrt % 10 ^ 9 := by
    unfold uint32 mul125
    omega
  rw [hrest, cleanUp_eq (by omega) (by omega) (by omega) (by omega) hg (by omega), hq]

/-- After a wrap the seconds are too small. -/
theorem secNsec_short (h : 2885857291 * 2 ^ 30 ≤ hrt) (hsec : hrt / 10 ^ 9 < 2 ^ 32) {r : ℤ × ℤ}
    (hr : secNsec 4 hrt = some r) : 0 ≤ r.1 ∧ r.1 < hrt / 10 ^ 9 := by
  have ht : uint32 (hrt / 2 ^ 30) = hrt / 2 ^ 30 := uint32_of_lt
  simp only [secNsec, ht] at hr
  have hshort := guess_short (x := hrt / 2 ^ 30) (by omega) (by omega)
  have hg : 0 ≤ guess (hrt / 2 ^ 30) := uint32_nonneg _
  have := cleanUp_le hg hr
  omega

/-- The conversions of a time are exact, with at most four iterations. -/
def Exact (w : ℕ) (hrt : ℤ) : Prop :=
  hrt2ts w 4 hrt = some (hrt / 10 ^ 9, hrt % 10 ^ 9) ∧
    hrt2tv w 4 hrt = some (hrt / 10 ^ 9, hrt % 10 ^ 9 / 1000) ∧
    (hrt2ts w 4 hrt).map ts2hrt = some hrt

instance : Decidable (Exact w hrt) := inferInstanceAs (Decidable (_ ∧ _))

/-- The conversions are exact just while the third step of the guess does not wrap and a `time_t`
has room for the seconds. -/
theorem hrt2ts_exact_iff (hw : w = 32 ∨ w = 64) (h0 : 0 ≤ hrt) (hsec : hrt / 10 ^ 9 < 2 ^ 32) :
    Exact w hrt ↔ hrt < 2885857291 * 2 ^ 30 ∧ hrt / 10 ^ 9 < 2 ^ (w - 1) := by
  have hnonneg : 0 ≤ hrt / 10 ^ 9 := by omega
  constructor
  · rintro ⟨hts, -⟩
    obtain ⟨r, hr, heq⟩ := map_eq_some_iff.1 hts
    obtain ⟨htime, -⟩ := Prod.mk.inj heq
    have hlt : hrt < 2885857291 * 2 ^ 30 := by
      by_contra hge
      obtain ⟨hpos, hlt⟩ := secNsec_short (not_lt.1 hge) hsec hr
      have := timeT_le hw hpos (hlt.trans hsec)
      omega
    obtain rfl := some.inj ((secNsec_eq h0 hlt).symm.trans hr)
    exact ⟨hlt, (timeT_eq_iff hw hnonneg hsec).1 htime⟩
  · rintro ⟨hlt, hroom⟩
    have hts := secNsec_eq h0 hlt
    have htime := (timeT_eq_iff hw hnonneg hsec).2 hroom
    simp only [Exact, hrt2ts, hrt2tv, hts, map_some, htime,
      usec_eq (show 0 ≤ hrt % 10 ^ 9 by omega) (by omega), true_and]
    exact congrArg some (by simp only [ts2hrt, mul125]; omega)

/-- The last time before the wrap and the next one, and the end of 32 bits. -/
theorem hrt2ts_exact_iff_bounds :
    Exact 64 3098665671442038783 ∧ ¬ Exact 64 3098665671442038784 ∧
      Exact 32 2147483647999999999 ∧ ¬ Exact 32 2147483648000000000 :=
  ⟨(hrt2ts_exact_iff (.inr rfl) (by decide) (by decide)).2 (by decide),
    fun h => absurd ((hrt2ts_exact_iff (.inr rfl) (by decide) (by decide)).1 h) (by decide),
    (hrt2ts_exact_iff (.inl rfl) (by decide) (by decide)).2 (by decide),
    fun h => absurd ((hrt2ts_exact_iff (.inl rfl) (by decide) (by decide)).1 h) (by decide)⟩

/-- The first time at which it wraps. -/
theorem hrt2ts_wraps :
    (3098665671442038784 : ℤ) < 2 ^ 62 ∧ (3098665671442038784 : ℤ) / 10 ^ 9 < 2 ^ 32 ∧
      hrt2ts 64 4 3098665671442038784 = some (3098632905, 136537600) ∧
      ¬ Exact 64 3098665671442038784 := by
  decide +kernel

end Osol.Timers
