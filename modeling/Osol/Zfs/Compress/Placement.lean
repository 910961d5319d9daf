import Osol.Zfs.Compress.Basic

/-!
# LZJB and the address of its source

The hash table starts with zeroes, and a slot that was never set stands for an address like
any other. Two runs on the same bytes are in step as long as the slots are at the same
distance from the two sources, modulo the window.
-/

namespace Osol.Zfs.Compress

open Osol.Lib Function

variable {a b : ℕ} {s : Buf} {sLen dLen : ℕ} {x y : LzState}

/-- Two runs, for sources at `a` and `b`. -/
structure InStep (a b : ℕ) (x y : LzState) : Prop where
  src : x.src = y.src
  dst : x.dst = y.dst
  copymap : x.copymap = y.copymap
  copymask : x.copymask = y.copymask
  out : Agree x.dst x.out y.out
  lempel : ∀ h, ((a : ℤ) - x.lempel h) % 1024 = ((b : ℤ) - y.lempel h) % 1024

theorem lzItem_hasGroup (h : x.copymap < x.dst) :
    (lzItem a s sLen x).copymap < (lzItem a s sLen x).dst := by
  unfold lzItem
  split
  · exact Nat.lt_succ_of_lt h
  · simp only
    split
    · exact Nat.lt_add_right 2 h
    · exact Nat.lt_succ_of_lt h

namespace InStep

theorem lzGroup (dLen : ℕ) (h : InStep a b x y) : (lzGroup dLen x = none ∧ lzGroup dLen y = none) ∨
      ∃ x' y', lzGroup dLen x = some x' ∧ lzGroup dLen y = some y' ∧ InStep a b x' y' ∧
        (x.copymask = 128 ∨ x.copymap < x.dst → x'.copymap < x'.dst) := by
  obtain ⟨h1, h2, h3, h4, h5, h6⟩ := h
  unfold Compress.lzGroup
  rw [← h4, ← h2]
  split
  · split
    · exact .inl ⟨rfl, rfl⟩
    · exact .inr ⟨_, _, rfl, rfl, ⟨h1, rfl, rfl, rfl, h5.append 0, h6⟩, fun _ => Nat.lt_succ_self _⟩
  next hmask =>
  refine .inr ⟨_, _, rfl, rfl, ⟨h1, rfl, h3, rfl, h5, h6⟩, ?_⟩
  rintro (h128 | hlt)
  · rw [h128] at hmask
    exact absurd rfl hmask
  · exact hlt

theorem lzLiteral (s : Buf) (h : InStep a b x y) : InStep a b (lzLiteral s x) (lzLiteral s y) := by
  obtain ⟨h1, h2, h3, h4, h5, h6⟩ := h
  unfold Compress.lzLiteral
  rw [← h1, ← h2]
  exact ⟨rfl, rfl, h3, h4, h5.append _, h6⟩

theorem lzReference (mlen offset : ℕ) (hmap : x.copymap < x.dst) (h : InStep a b x y) :
    InStep a b (lzReference x mlen offset) (lzReference y mlen offset) := by
  obtain ⟨h1, h2, h3, h4, h5, h6⟩ := h
  unfold Compress.lzReference
  rw [← h1, ← h2, ← h3, ← h4, ← h5 _ hmap]
  exact ⟨rfl, rfl, rfl, rfl, (h5.write_same.append _).append _, h6⟩

theorem setSlot (k : ℕ) (h : InStep a b x y) :
    InStep a b { x with lempel := update x.lempel k ((a + x.src) % 65536) }
      { y with lempel := update y.lempel k ((b + y.src) % 65536) } := by
  obtain ⟨h1, h2, h3, h4, h5, h6⟩ := h
  refine ⟨h1, h2, h3, h4, h5, fun i => ?_⟩
  by_cases hi : i = k
  · simp only [hi, update_self, h1]
    omega
  · simp only [update_of_ne hi]
    exact h6 i

theorem lzItem (s : Buf) (sLen : ℕ) (hmap : x.copymap < x.dst)
    (h : InStep a b x y) : InStep a b (lzItem a s sLen x) (lzItem b s sLen y) := by
  unfold Compress.lzItem
  rw [← h.src]
  split
  · exact h.lzLiteral s
  simp only
  generalize lzHash (s x.src) (s (x.src + 1)) (s (x.src + 2)) = k
  have hoff : (((b + x.src : ℤ) - y.lempel k) % 1024).toNat =
    (((a + x.src : ℤ) - x.lempel k) % 1024).toNat := by
    have := h.lempel k
    omega
  rw [hoff]
  generalize (((a + x.src : ℤ) - x.lempel k) % 1024).toNat = offset
  have hcpy : ((b + x.src : ℤ) - offset - b) = ((a + x.src : ℤ) - offset - a) := by omega
  have hset := h.setSlot k
  rw [← h.src] at hset
  rw [hcpy]
  by_cases hc : (a : ℤ) ≤ (a + x.src : ℤ) - offset ∧ (a + x.src : ℤ) - offset ≠ a + x.src ∧
      s x.src = s ((a + x.src : ℤ) - offset - a).toNat ∧
      s (x.src + 1) = s (((a + x.src : ℤ) - offset - a).toNat + 1) ∧
      s (x.src + 2) = s (((a + x.src : ℤ) - offset - a).toNat + 2)
  · rw [if_pos hc, if_pos ⟨by omega, by omega, hc.2.2⟩]
    exact hset.lzReference _ offset hmap
  · rw [if_neg hc, if_neg (fun hn => hc ⟨by omega, by omega, hn.2.2⟩)]
    exact hset.lzLiteral s

theorem lzLoop (n : ℕ) (hmap : x.copymask = 128 ∨ x.copymap < x.dst) (h : InStep a b x y) :
    (lzLoop a s sLen dLen n x).1 = (lzLoop b s sLen dLen n y).1 ∧ ((lzLoop a s sLen dLen n x).1 < sLen →
        Agree (lzLoop a s sLen dLen n x).1 (lzLoop a s sLen dLen n x).2
          (lzLoop b s sLen dLen n y).2) := by
  induction n generalizing x y with
  | zero => exact ⟨h.dst, fun _ => h.out⟩
  | succ n ih =>
    unfold Compress.lzLoop
    rw [← h.src]
    split
    · rcases h.lzGroup dLen with ⟨h1, h2⟩ | ⟨x', y', h1, h2, h3, h4⟩
      · rw [h1, h2]
        exact ⟨rfl, fun hlt => absurd hlt (Nat.lt_irrefl _)⟩
      · rw [h1, h2]
        have hlt := h4 hmap
        exact ih (.inr (lzItem_hasGroup hlt)) (h3.lzItem s sLen hlt)
    · exact ⟨h.dst, fun _ => h.out⟩

end InStep

/-- The outputs of two calls: the lengths, and the bytes when the source was compressed. -/
def SameOutput (sLen : ℕ) (p q : ℕ × Buf) : Prop :=
  p.1 = q.1 ∧ (p.1 < sLen → Agree p.1 p.2 q.2)

theorem lzjbCompress_sameOutput (s dst dst' : Buf) (sLen dLen : ℕ) (hab : a % 1024 = b % 1024) :
    SameOutput sLen (lzjbCompress a s dst sLen dLen) (lzjbCompress b s dst' sLen dLen) := by
  refine InStep.lzLoop sLen (.inl rfl) ⟨rfl, rfl, rfl, rfl, ?_, fun _ => ?_⟩
  · intro z hz
    exact absurd hz (Nat.not_lt_zero z)
  · simp only
    omega

/-- The bytes `0, 1, 2` stand at 512 and at 516. The first is inside a match, so no slot is
set for it; the unset slot is the index 512 if the source is at 512 modulo 1024. -/
def placed : Buf := fun x =>
  if x = 513 then 1 else if x = 514 then 2 else if x = 515 then 3
  else if x = 517 then 1 else if x = 518 then 2 else 0

theorem placed_length : (lzjbCompress 0 placed (fun _ => 0) 1024 512).1 = 107 ∧
    (lzjbCompress 512 placed (fun _ => 0) 1024 512).1 = 105 := by
  decide +kernel

/-- The output of LZJB is the same for two sector-aligned places of the source, whatever it
holds, just if the places are the same modulo the window. -/
theorem lzjb_deterministic_iff (ha : spaMinblocksize ∣ a) (hb : spaMinblocksize ∣ b) :
    (∀ s dst dst' sLen dLen,
      SameOutput sLen (lzjbCompress a s dst sLen dLen) (lzjbCompress b s dst' sLen dLen)) ↔
      a % 1024 = b % 1024 := by
  unfold spaMinblocksize at ha hb
  refine ⟨fun h => ?_, fun hab s dst dst' sLen dLen => lzjbCompress_sameOutput s dst dst' sLen dLen hab⟩
  by_contra hne
  -- the two places are those of `placed_length`, up to the window
  have hlen := (h placed (fun _ => 0) (fun _ => 0) 1024 512).1
  have hmod : ∀ c i, c % 1024 = i % 1024 → (lzjbCompress c placed (fun _ => 0) 1024 512).1 =
      (lzjbCompress i placed (fun _ => 0) 1024 512).1 :=
    fun c i hci => (lzjbCompress_sameOutput placed _ _ 1024 512 hci).1
  obtain ⟨h0, h512⟩ := placed_length
  rcases (by omega : a % 1024 = 0 ∧ b % 1024 = 512 ∨ a % 1024 = 512 ∧ b % 1024 = 0) with
    ⟨ha', hb'⟩ | ⟨ha', hb'⟩
  · rw [hmod a 0 ha', hmod b 512 hb', h0, h512] at hlen
    omega
  · rw [hmod a 512 ha', hmod b 0 hb', h0, h512] at hlen
    omega

theorem lzjb_deterministic_iff_sectors : ¬ ∀ s dst dst' sLen dLen,
      SameOutput sLen (lzjbCompress 8192 s dst sLen dLen) (lzjbCompress 8704 s dst' sLen dLen) :=
  fun h => absurd ((lzjb_deterministic_iff (by decide) (by decide)).1 h) (by decide)

/-- Two aligned places of one source with outputs of different lengths. -/
theorem lzjb_not_deterministic :
    spaMinblocksize ∣ 8192 ∧ spaMinblocksize ∣ 8704 ∧ compressLimit 1024 = 512 ∧
      ¬ SameOutput 1024 (lzjbCompress 8192 placed (fun _ => 0) 1024 512)
        (lzjbCompress 8704 placed (fun _ => 0) 1024 512) := by
  refine ⟨by decide, by decide, by decide, fun h => ?_⟩
  have hne : (lzjbCompress 8192 placed (fun _ => 0) 1024 512).1 ≠
      (lzjbCompress 8704 placed (fun _ => 0) 1024 512).1 := by
    decide +kernel
  exact hne h.1

end Osol.Zfs.Compress
