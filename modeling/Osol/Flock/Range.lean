import Mathlib

/-!
# The range of a lock request

`reclock` turns `l_whence`, `l_start` and `l_len` of a request into the first and the last byte of
the lock, in 64 bits, and checks the result afterwards. A start that wrapped around can pass the
check, and a negative length stands for the bytes up to `p`, not for those before it.
-/

namespace Osol.Flock

open BitVec Option

abbrev UOffset : Type := BitVec 64

def EINVAL : ℕ := 22

/-- `MAX_U_OFFSET_T`, as the end of a lock that has none. -/
def maxUOffset : UOffset := 0xffffffffffffffff

def maxEnd : UOffset := 0x7fffffffffffffff

/-- The fields of `flock64_t` that say which bytes are meant. -/
structure Flock64 where
  lWhence : ℤ
  lStart : UOffset
  lLen : UOffset

/-- The first half of `flk_convert_lock_data`. `size` is what `VOP_GETATTR` returns. -/
def startOf (size : Except ℕ (UOffset)) (flp : Flock64) (offset : UOffset) : Except ℕ (UOffset) :=
  match flp.lWhence with
  | 0 => .ok flp.lStart
  | 1 => .ok (flp.lStart + offset)
  | 2 => do .ok (flp.lStart + (← size))
  | _ => .error EINVAL

/-- The second half of `flk_convert_lock_data`. -/
def rangeFrom (start len : UOffset) : UOffset × UOffset :=
  if len = 0 then (start, maxUOffset)
  else if 0 < len.toInt then (start, start + (len - 1))
  else (start + len + 1, start)

def flkConvertLockData (size : Except ℕ (UOffset)) (flp : Flock64) (offset : UOffset) :
    Except ℕ (UOffset × UOffset) := do
  .ok (rangeFrom (← startOf size flp offset) flp.lLen)

def flkCheckLockData (start last max : UOffset) : Except ℕ Unit :=
  if start > max ∨ last > max ∧ last ≠ maxUOffset then .error EINVAL
  else if start > last then .error EINVAL
  else .ok ()

/-- What `reclock` does with a local request. -/
def lockRange (size : Except ℕ (UOffset)) (flp : Flock64) (offset : UOffset) :
    Except ℕ (UOffset × UOffset) := do
  let r ← flkConvertLockData size flp offset
  flkCheckLockData r.1 r.2 maxEnd
  .ok r

/-! ## The bytes that are meant -/

/-- The byte that `l_start` leads to, from what `l_whence` says. -/
def Flock64.point (flp : Flock64) (offset size : UOffset) : ℤ :=
  flp.lStart.toInt +
    if flp.lWhence = 0 then 0 else if flp.lWhence = 1 then offset.toInt else size.toNat

/-- The first byte, and the last one if there is one. -/
def bytesMeant (p len : ℤ) : ℤ × Option ℤ :=
  if len = 0 then (p, none) else if 0 < len then (p, some (p + len - 1)) else (p + len, some (p - 1))

def InFile (r : ℤ × Option ℤ) : Prop :=
  0 ≤ r.1 ∧ r.1 ≤ maxEnd.toNat ∧ ∀ last ∈ r.2, r.1 ≤ last ∧ last ≤ maxEnd.toNat

/-- A lock has the bytes that are meant if there are such, and is refused otherwise. -/
def ExactRange (size : UOffset) (flp : Flock64) (offset : UOffset) : Prop :=
  let r := bytesMeant (flp.point offset size) flp.lLen.toInt
  (InFile r → ∃ s, lockRange (.ok size) flp offset = .ok s) ∧
    ∀ s, lockRange (.ok size) flp offset = .ok s →
      InFile r ∧ (s.1.toNat : ℤ) = r.1 ∧ (s.2.toNat : ℤ) = r.2.getD maxUOffset.toNat

theorem startOf_eq {flp : Flock64} (hw : flp.lWhence ∈ [0, 1, 2]) (size offset : UOffset) :
    ∃ s, startOf (.ok size) flp offset = .ok s ∧ (s.toNat : ℤ) = flp.point offset size % 2 ^ 64 := by
  obtain ⟨whence, start, len⟩ := flp
  have hs := start.toInt_eq_toNat_cond
  have ho := offset.toInt_eq_toNat_cond
  simp only [List.mem_cons, List.not_mem_nil, or_false] at hw
  rcases hw with rfl | rfl | rfl
  · refine ⟨start, rfl, ?_⟩
    simp only [Flock64.point, if_true]
    omega
  · refine ⟨start + offset, rfl, ?_⟩
    simp only [Flock64.point, toNat_add, if_true, Int.one_ne_zero, if_false]
    omega
  · refine ⟨start + size, rfl, ?_⟩
    simp only [Flock64.point, toNat_add]
    omega

/-- What `flk_check_lock_data` lets through. -/
def Passes (r : UOffset × UOffset) : Prop :=
  r.1.toNat < 2 ^ 63 ∧ (r.2.toNat < 2 ^ 63 ∨ r.2.toNat = 2 ^ 64 - 1) ∧ r.1.toNat ≤ r.2.toNat

theorem flkCheckLockData_ok_iff (r : UOffset × UOffset) :
    flkCheckLockData r.1 r.2 maxEnd = .ok () ↔ Passes r := by
  have hmax : ∀ x : UOffset, x > maxEnd ↔ 2 ^ 63 ≤ x.toNat := fun x => by exact Nat.lt_iff_add_one_le
  have huoff : r.2 = maxUOffset ↔ r.2.toNat = 2 ^ 64 - 1 := BitVec.toNat_inj.symm
  unfold flkCheckLockData Passes
  simp only [hmax, huoff, ne_eq]
  simp only [GT.gt, lt_def]
  split_ifs <;> simp only [false_iff, true_iff] <;> omega

theorem lockRange_ok_iff {size flp offset} {s : UOffset × UOffset} {start : UOffset}
    (h : startOf (.ok size) flp offset = .ok start) :
    lockRange (.ok size) flp offset = .ok s ↔ Passes s ∧ rangeFrom start flp.lLen = s := by
  unfold lockRange flkConvertLockData
  rw [h]
  generalize hr : rangeFrom start flp.lLen = r
  have hpasses := flkCheckLockData_ok_iff r
  cases hcheck : flkCheckLockData r.1 r.2 maxEnd with
  | error e =>
    rw [hcheck] at hpasses
    simp only [bind, Except.bind, hr, hcheck, reduceCtorEq, false_iff]
    exact fun h => nomatch hpasses.2 (h.2 ▸ h.1)
  | ok =>
    simp only [bind, Except.bind, hr, hcheck, Except.ok.injEq]
    exact ⟨fun h => ⟨h ▸ hpasses.1 hcheck, h⟩, And.right⟩

/-- A start that passes has not wrapped around; a negative length is refused, as it should be. -/
def NoWrap (p len : ℤ) : Prop :=
  if len < 0 then ¬ (p % 2 ^ 64 < 2 ^ 63 ∧ -len ≤ p % 2 ^ 64 + 1) ∧ p ≠ 2 ^ 63
  else p % 2 ^ 64 < 2 ^ 63 → p % 2 ^ 64 + len ≤ 2 ^ 63 → 0 ≤ p ∧ p < 2 ^ 63
  deriving Decidable

theorem exactRange_iff (size : UOffset) (flp : Flock64) (offset : UOffset)
    (hw : flp.lWhence ∈ [0, 1, 2]) :
    ExactRange size flp offset ↔ NoWrap (flp.point offset size) flp.lLen.toInt := by
  obtain ⟨start, hstart, hmod⟩ := startOf_eq hw size offset
  unfold ExactRange
  simp only [lockRange_ok_iff hstart]
  generalize flp.point offset size = p at *
  generalize flp.lLen = len
  rw [show (∃ s, Passes s ∧ rangeFrom start len = s) ↔ Passes (rangeFrom start len) from
      ⟨fun ⟨s, h, hs⟩ => hs ▸ h, fun h => ⟨_, h, rfl⟩⟩,
    show (∀ s, Passes s ∧ rangeFrom start len = s → _) ↔ (Passes (rangeFrom start len) → _) from
      ⟨fun h hp => h _ ⟨hp, rfl⟩, fun h s ⟨hp, hs⟩ => hs ▸ h (hs ▸ hp)⟩]
  have hlen := len.toInt_eq_toNat_cond
  have hone : (1 : UOffset).toNat = 1 := rfl
  have hmax : maxEnd.toNat = 2 ^ 63 - 1 := rfl
  have hoff : maxUOffset.toNat = 2 ^ 64 - 1 := rfl
  unfold bytesMeant NoWrap InFile Passes
  rcases Int.lt_trichotomy len.toInt 0 with hneg | hzero | hpos
  · have hr : rangeFrom start len = (start + len + 1, start) := by
      unfold rangeFrom
      rw [if_neg (by rintro rfl; simp at hneg), if_neg (by omega)]
    have h1 : (start + len + 1).toNat = (start.toNat + len.toInt + 1) % 2 ^ 64 := by
      simp only [toNat_add, hone]
      omega
    rw [hr, if_neg (by omega), if_neg (by omega), if_pos hneg]
    simp only [h1, hmax, mem_some_iff, forall_eq', getD_some]
    omega
  · have hr : rangeFrom start len = (start, maxUOffset) := by
      unfold rangeFrom
      rw [if_pos (BitVec.toInt_inj.1 hzero)]
    grind
  · have hr : rangeFrom start len = (start, start + (len - 1)) := by
      unfold rangeFrom
      rw [if_neg (by rintro rfl; simp at hpos), if_pos hpos]
    have h2 : (start + (len - 1)).toNat = (start.toNat + len.toInt - 1) % 2 ^ 64 := by
      simp only [toNat_add, toNat_sub, hone]
      omega
    rw [hr, if_neg (by omega), if_pos hpos, if_neg (by omega)]
    simp only [h2, hmax, mem_some_iff, forall_eq', getD_some]
    omega

theorem exactRange_ten : (0 : ℤ) ∈ [0, 1, 2] ∧ NoWrap 10 5 ∧ ExactRange 100 ⟨0, 10, 5⟩ 0 :=
  ⟨by decide, by decide, (exactRange_iff 100 ⟨0, 10, 5⟩ 0 (by decide)).2 (by decide)⟩

/-- The last ten bytes of a file of 100 are those from 90 to 99; the lock is from 91 to 100. -/
theorem lockRange_last_ten : bytesMeant (Flock64.point ⟨2, 0, -10⟩ 0 100) (-10) = (90, some 99) ∧
      lockRange (.ok 100) ⟨2, 0, -10⟩ 0 = .ok (91, 100) ∧ ¬ ExactRange 100 ⟨2, 0, -10⟩ 0 := by
  refine ⟨by decide, rfl, fun h => ?_⟩
  have := (h.2 (91, 100) rfl).2.1
  revert this
  decide

end Osol.Flock
