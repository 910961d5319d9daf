import Mathlib

/-!
# The word of a readers/writer lock

`rw_wwwh` holds the owner or the number of readers above three bits. The code adds, subtracts and
masks whole words; the lemmas here say what that does to the fields.
-/

namespace Osol.Rwlock

open BitVec

/-- `uintptr_t`, of an LP64 kernel. -/
abbrev Word := BitVec 64

def rwHasWaiters : Word := 1
def rwWriteWanted : Word := 2
def rwWriteLocked : Word := 4
def rwReadLock : Word := 8

/-- `RW_WRITE_LOCK(thread)`. -/
def rwWriteLock (thread : Word) : Word := thread ||| rwWriteLocked

/-- `RW_HOLD_COUNT`, which is also `RW_OWNER` and `RW_LOCKED`. -/
def rwHoldCount : Word := -rwReadLock
def rwOwner : Word := rwHoldCount
def rwLocked : Word := rwHoldCount

def rwWriteClaimed : Word := rwWriteLocked ||| rwWriteWanted
def rwDoubleLock : Word := rwWriteLock 0 ||| rwReadLock

/-! ## Fields -/

/-- The fields of the word: the number of readers, or an eighth of the address of the owner. -/
structure Fields where
  count : ℕ
  wrlock : Bool
  wanted : Bool
  waiters : Bool
  deriving DecidableEq

namespace Fields

/-- The bits below the count. -/
def low (f : Fields) : ℕ := 4 * f.wrlock.toNat + 2 * f.wanted.toNat + f.waiters.toNat

def word (f : Fields) : Word := BitVec.ofNat 64 (8 * f.count + f.low)

def Fits (f : Fields) : Prop := f.count < 2 ^ 61

variable {f g : Fields}

theorem low_lt (f : Fields) : f.low < 8 := by
  have h1 := Bool.toNat_le f.wrlock
  have h2 := Bool.toNat_le f.wanted
  have h3 := Bool.toNat_le f.waiters
  unfold low
  omega

theorem toNat_word (hf : f.Fits) : f.word.toNat = 8 * f.count + f.low := by
  have := f.low_lt
  unfold Fits at hf
  rw [word, toNat_ofNat, Nat.mod_eq_of_lt (by omega)]

theorem ext_of_low (hc : f.count = g.count) (hl : f.low = g.low) : f = g := by
  obtain ⟨c, a, b, d⟩ := f
  obtain ⟨c', a', b', d'⟩ := g
  revert hl
  cases hc
  unfold low
  cases a <;> cases b <;> cases d <;> cases a' <;> cases b' <;> cases d' <;> simp

theorem word_inj (hf : f.Fits) (hg : g.Fits) (h : f.word = g.word) : f = g := by
  have := congrArg BitVec.toNat h
  rw [toNat_word hf, toNat_word hg] at this
  have := f.low_lt
  have := g.low_lt
  exact ext_of_low (by omega) (by omega)

/-! ## Masks -/

variable {m : Word}

theorem toNat_and_low {x : Word} (hm : m.toNat < 16) : (x &&& m).toNat = x.toNat % 16 &&& m.toNat := by
  have h15 : m.toNat = 15 &&& m.toNat := by
    rw [Nat.and_comm, Nat.and_two_pow_sub_one_eq_mod _ 4, Nat.mod_eq_of_lt hm]
  rw [toNat_and]
  nth_rewrite 1 [h15]
  rw [← Nat.and_assoc, Nat.and_two_pow_sub_one_eq_mod _ 4]

theorem toNat_and_high (k : ℕ) (hm : ∀ i < 64, m.getLsbD i = decide (k ≤ i)) (x : Word) :
    (x &&& m).toNat = x.toNat / 2 ^ k * 2 ^ k := by
  have hshift : x &&& m = (x >>> k) <<< k := by
    apply eq_of_getLsbD_eq
    intro i hi
    rw [getLsbD_and, hm i hi, getLsbD_shiftLeft, getLsbD_ushiftRight]
    by_cases hk : k ≤ i
    · have : k + (i - k) = i := by omega
      simp [hk, hi, this]
    · simp [hk]
  have hle : x.toNat / 2 ^ k * 2 ^ k ≤ x.toNat := Nat.div_mul_le_self _ _
  rw [hshift, toNat_shiftLeft, toNat_ushiftRight, Nat.shiftLeft_eq, Nat.shiftRight_eq_div_pow,
    Nat.mod_eq_of_lt (by omega)]

section

variable (hf : f.Fits)
include hf

theorem mask_iff {r : Word} {P : Bool → Bool → Bool → Bool → Prop} (hm : m.toNat < 16)
    (hP : ∀ p a b d : Bool, (8 * p.toNat + (4 * a.toNat + 2 * b.toNat + d.toNat)) &&& m.toNat =
      r.toNat ↔ P p a b d) :
    f.word &&& m = r ↔ P (f.count % 2 = 1) f.wrlock f.wanted f.waiters := by
  have hlow := f.low_lt
  have hmod : (8 * f.count + f.low) % 16 = 8 * (decide (f.count % 2 = 1)).toNat + f.low := by
    rcases Nat.mod_two_eq_zero_or_one f.count with h0 | h1
    · simp only [h0, Nat.zero_ne_one, decide_false, Bool.toNat_false]
      omega
    · simp only [h1, decide_true, Bool.toNat_true]
      omega
  rw [← hP, ← toNat_inj, toNat_and_low hm, toNat_word hf, hmod]
  rfl

theorem and_waiters : f.word &&& rwHasWaiters = 0 ↔ f.waiters = false :=
  mask_iff (P := fun _ _ _ d => d = false) hf (by decide) (by decide)

theorem and_writeWanted : f.word &&& rwWriteWanted = 0 ↔ f.wanted = false :=
  mask_iff (P := fun _ _ b _ => b = false) hf (by decide) (by decide)

theorem and_writeLocked : f.word &&& rwWriteLocked = 0 ↔ f.wrlock = false :=
  mask_iff (P := fun _ a _ _ => a = false) hf (by decide) (by decide)

theorem and_writeClaimed : f.word &&& rwWriteClaimed = 0 ↔ f.wrlock = false ∧ f.wanted = false :=
  mask_iff (P := fun _ a b _ => a = false ∧ b = false) hf (by decide) (by decide)

theorem and_doubleLock : f.word &&& rwDoubleLock = rwDoubleLock ↔ f.count % 2 = 1 ∧ f.wrlock = true := by
  rw [mask_iff (P := fun p a _ _ => p = true ∧ a = true) hf (by decide) (by decide), decide_eq_true_iff]

theorem toNat_and_locked : (f.word &&& rwLocked).toNat = 8 * f.count := by
  have := f.low_lt
  rw [toNat_and_high 3 (by decide), toNat_word hf]
  omega

theorem and_locked : f.word &&& rwLocked = 0 ↔ f.count = 0 := by
  rw [← toNat_inj, toNat_and_locked hf]
  simp

theorem and_owner (thread : Word) : f.word &&& rwOwner = thread ↔ 8 * f.count = thread.toNat := by
  rw [← toNat_inj]
  exact Eq.congr_left (toNat_and_locked hf)

theorem and_locked_waiters :
    f.word &&& (rwLocked ||| rwHasWaiters) = rwHasWaiters ↔ f.count = 0 ∧ f.waiters = true := by
  have hdist : f.word &&& (rwLocked ||| rwHasWaiters) =
    (f.word &&& rwLocked) ||| (f.word &&& rwHasWaiters) := by
    ext i
    simp [Bool.and_or_distrib_left]
  have hone : f.word &&& rwHasWaiters = rwHasWaiters ↔ f.waiters = true :=
    mask_iff (P := fun _ _ _ d => d = true) hf (by decide) (by decide)
  rw [← and_locked hf, ← hone, hdist]
  constructor
  · intro heq
    have h0 : f.word &&& rwLocked = 0 := by
      have hand := congrArg (· &&& rwLocked) heq
      simp only [and_or_distrib_right, BitVec.and_assoc, BitVec.and_self] at hand
      rw [show rwHasWaiters &&& rwLocked = 0 by decide] at hand
      simpa using hand
    rw [h0] at heq
    exact ⟨h0, by simpa using heq⟩
  · rintro ⟨h0, h1⟩
    rw [h0, h1]
    rfl

theorem and_not_waiters :
    f.word &&& ~~~rwHasWaiters = rwReadLock ↔ f.count = 1 ∧ f.wrlock = false ∧ f.wanted = false := by
  rw [← toNat_inj, toNat_and_high 1 (by decide), toNat_word hf]
  change _ = 8 ↔ _
  obtain ⟨c, a, b, d⟩ := f
  cases a <;> cases b <;> cases d <;> simp [low] <;> omega

/-! ## Updates -/

theorem toNat_word_or (hm : m.toNat < 8) : (f.word ||| m).toNat = 8 * f.count + (f.low ||| m.toNat) := by
  have hor : f.low ||| m.toNat < 2 ^ 3 := Nat.or_lt_two_pow f.low_lt hm
  rw [toNat_or, toNat_word hf, show 8 = 2 ^ 3 from rfl, Nat.two_pow_add_eq_or_of_lt f.low_lt,
    Nat.or_assoc, ← Nat.two_pow_add_eq_or_of_lt hor]

theorem word_or_bits {G : Bool → Bool → Bool → Bool × Bool × Bool} (hm : m.toNat < 8)
    (hG : ∀ a b d : Bool, (4 * a.toNat + 2 * b.toNat + d.toNat) ||| m.toNat =
      4 * (G a b d).1.toNat + 2 * (G a b d).2.1.toNat + (G a b d).2.2.toNat) :
    f.word ||| m = (⟨f.count, (G f.wrlock f.wanted f.waiters).1,
      (G f.wrlock f.wanted f.waiters).2.1, (G f.wrlock f.wanted f.waiters).2.2⟩ : Fields).word := by
  have hg : (⟨f.count, (G f.wrlock f.wanted f.waiters).1, (G f.wrlock f.wanted f.waiters).2.1,
      (G f.wrlock f.wanted f.waiters).2.2⟩ : Fields).Fits := hf
  apply eq_of_toNat_eq
  rw [toNat_word_or hf hm, toNat_word hg, low, hG]
  rfl

theorem word_or_waiters : f.word ||| rwHasWaiters = { f with waiters := true }.word :=
  word_or_bits (G := fun a b _ => (a, b, true)) hf (by decide) (by decide)

theorem word_or_wanted : f.word ||| rwWriteWanted = { f with wanted := true }.word :=
  word_or_bits (G := fun a _ d => (a, true, d)) hf (by decide) (by decide)

theorem word_or_both :
    f.word ||| (rwHasWaiters ||| rwWriteWanted) = { f with wanted := true, waiters := true }.word :=
  word_or_bits (G := fun a _ _ => (a, true, true)) hf (by decide) (by decide)

end

theorem word_add_eq {n : ℕ} (h : 8 * f.count + f.low + n = 8 * g.count + g.low) :
    f.word + BitVec.ofNat 64 n = g.word := by
  rw [word, word, ← ofNat_add, h]

theorem word_sub_eq {n : ℕ} (h : 8 * f.count + f.low = 8 * g.count + g.low + n) :
    f.word - BitVec.ofNat 64 n = g.word := by
  rw [← word_add_eq h.symm, BitVec.add_sub_cancel]

theorem word_add_read (f : Fields) : f.word + rwReadLock = { f with count := f.count + 1 }.word :=
  word_add_eq (by simp only [low]; omega)

theorem word_sub_read (hc : 0 < f.count) : f.word - rwReadLock = { f with count := f.count - 1 }.word :=
  word_sub_eq (by simp only [low]; omega)

theorem word_add_reads (f : Fields) (n : ℕ) :
    f.word + BitVec.ofNat 64 n * rwReadLock = { f with count := f.count + n }.word := by
  rw [show BitVec.ofNat 64 n * rwReadLock = BitVec.ofNat 64 (n * 8) from (ofNat_mul ..).symm]
  exact word_add_eq (by simp only [low]; omega)

theorem reads_eq (n : ℕ) : BitVec.ofNat 64 n * rwReadLock = (⟨n, false, false, false⟩ : Fields).word := by
  rw [show BitVec.ofNat 64 n * rwReadLock = BitVec.ofNat 64 (n * 8) from (ofNat_mul ..).symm, word]
  simp [low, Nat.mul_comm]

/-! ## Owners -/

/-- The fields of a lock that a writer holds. -/
def owned (thread : Word) (wanted waiters : Bool) : Fields := ⟨thread.toNat / 8, true, wanted, waiters⟩

variable {thread : Word}

theorem fits_owned (thread : Word) (ww hw : Bool) : (owned thread ww hw).Fits := by
  unfold Fits owned
  dsimp only
  omega

section

variable (ha : thread.toNat % 16 = 0)
include ha

theorem writeLock_eq : rwWriteLock thread = BitVec.ofNat 64 (thread.toNat + 4) := by
  apply eq_of_toNat_eq
  rw [rwWriteLock, toNat_or, toNat_ofNat, Nat.mod_eq_of_lt (by omega)]
  change thread.toNat ||| 4 = _
  obtain ⟨k, hk⟩ : ∃ k, thread.toNat = 2 ^ 3 * k := ⟨thread.toNat / 8, by omega⟩
  rw [hk, ← Nat.two_pow_add_eq_or_of_lt (by decide)]

theorem word_add_write (ww hw : Bool) :
    (⟨0, false, ww, hw⟩ : Fields).word + rwWriteLock thread = (owned thread ww hw).word := by
  rw [writeLock_eq ha]
  refine word_add_eq ?_
  simp only [low, owned, Bool.toNat_true, Bool.toNat_false]
  omega

theorem writeLock_eq_word : rwWriteLock thread = (owned thread false false).word := by
  rw [← word_add_write ha, show (⟨0, false, false, false⟩ : Fields).word = 0 from rfl, zero_add]

theorem word_sub_write (ww hw : Bool) :
    (owned thread ww hw).word - rwWriteLock thread = (⟨0, false, ww, hw⟩ : Fields).word := by
  rw [← word_add_write ha, BitVec.add_sub_cancel]

theorem word_downgrade (ww hw : Bool) :
    (owned thread ww hw).word + (rwReadLock - rwWriteLock thread) = (⟨1, false, ww, hw⟩ : Fields).word := by
  rw [← word_add_write ha, BitVec.add_assoc,
    show rwWriteLock thread + (rwReadLock - rwWriteLock thread) = rwReadLock by
    rw [BitVec.add_comm, BitVec.sub_add_cancel]]
  exact word_add_read _

theorem word_upgrade (ww hw : Bool) :
    (⟨1, false, ww, hw⟩ : Fields).word + rwWriteLock thread - rwReadLock = (owned thread ww hw).word := by
  have hread : (⟨1, false, ww, hw⟩ : Fields).word =
    (⟨0, false, ww, hw⟩ : Fields).word + rwReadLock := (word_add_read ⟨0, false, ww, hw⟩).symm
  rw [hread, BitVec.add_assoc, BitVec.add_comm rwReadLock, ← BitVec.add_assoc,
    BitVec.add_sub_cancel, word_add_write ha]

end

end Fields

end Osol.Rwlock
