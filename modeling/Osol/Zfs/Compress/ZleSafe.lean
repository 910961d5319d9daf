import Osol.Zfs.Compress.Zle

/-!
# The accesses of `zle_decompress`

Its loops once more, with `none` for an access outside of the two buffers and for a loop that is
not finished. The chunks of the source are the same whatever the ends are.
-/

namespace Osol.Zfs.Compress

open Osol.Lib Function

def copyRunIn (s : Buf) (sEnd dEnd : ℕ) : ℕ → ℕ → ℕ → Buf → Option Buf
  | 0, _, _, out => some out
  | len + 1, src, dst, out =>
    if src < sEnd ∧ dst < dEnd then
      copyRunIn s sEnd dEnd len (src + 1) (dst + 1) (update out dst (s src))
    else none

def fillRunIn (dEnd : ℕ) : ℕ → ℕ → Buf → Option Buf
  | 0, _, out => some out
  | len + 1, dst, out =>
    if dst < dEnd then fillRunIn dEnd len (dst + 1) (update out dst 0) else none

def unzleLoopIn (s : Buf) (sEnd dEnd lim : ℕ) : ℕ → ℕ → ℕ → Buf → Option (ℕ × Buf)
  | 0, src, dst, out => if src < sEnd ∧ dst < dEnd then none else some (dst, out)
  | n + 1, src, dst, out =>
    if src < sEnd ∧ dst < dEnd then
      let len := 1 + (s src).toNat
      let src := src + 1
      if len ≤ lim then do
        let out ← copyRunIn s sEnd dEnd len src dst out
        unzleLoopIn s sEnd dEnd lim n (src + len) (dst + len) out
      else
        let len := len - lim
        do
          let out ← fillRunIn dEnd len dst out
          unzleLoopIn s sEnd dEnd lim n src (dst + len) out
    else some (dst, out)

def zleDecompressIn (s dst : Buf) (sLen dLen lim : ℕ) : Option (ℤ × Buf) :=
  (unzleLoopIn s sLen dLen lim dLen 0 0 dst).map fun (d, out) =>
    (if d = dLen then 0 else -1, out)

/-- The places in the source and the destination behind the chunk at `p`. -/
def chunkEnd (s : Buf) (lim : ℕ) (p : ℕ × ℕ) : ℕ × ℕ :=
  let len := 1 + (s p.1).toNat
  if len ≤ lim then (p.1 + 1 + len, p.2 + len) else (p.1 + 1, p.2 + (len - lim))

/-- From `p` on, every chunk that begins before both ends is inside of them. -/
def ChunksFit (s : Buf) (sEnd dEnd lim : ℕ) (p : ℕ × ℕ) : Prop :=
  ∀ k, ((chunkEnd s lim)^[k] p).1 < sEnd → ((chunkEnd s lim)^[k] p).2 < dEnd →
    ((chunkEnd s lim)^[k + 1] p).1 ≤ sEnd ∧ ((chunkEnd s lim)^[k + 1] p).2 ≤ dEnd

variable {s out : Buf} {sEnd dEnd lim src dst : ℕ}

theorem chunkEnd_le (k : ℕ) (p : ℕ × ℕ) :
    p.1 ≤ ((chunkEnd s lim)^[k] p).1 ∧ p.2 ≤ ((chunkEnd s lim)^[k] p).2 := by
  induction k generalizing p with
  | zero => exact ⟨Nat.le_refl _, Nat.le_refl _⟩
  | succ k ih =>
    have h1 := ih (chunkEnd s lim p)
    have h2 : p.1 ≤ (chunkEnd s lim p).1 ∧ p.2 ≤ (chunkEnd s lim p).2 := by
      unfold chunkEnd
      dsimp only
      split <;> omega
    rw [iterate_succ_apply]
    omega

theorem chunksFit_end {p : ℕ × ℕ} (h : ¬(p.1 < sEnd ∧ p.2 < dEnd)) : ChunksFit s sEnd dEnd lim p := by
  intro k h1 h2
  have := @chunkEnd_le s lim k p
  omega

theorem chunksFit_iff {p : ℕ × ℕ} (h : p.1 < sEnd ∧ p.2 < dEnd) : ChunksFit s sEnd dEnd lim p ↔
      ((chunkEnd s lim p).1 ≤ sEnd ∧ (chunkEnd s lim p).2 ≤ dEnd) ∧
      ChunksFit s sEnd dEnd lim (chunkEnd s lim p) := by
  refine ⟨fun hf => ⟨hf 0 h.1 h.2, fun k => hf (k + 1)⟩, fun hf k => ?_⟩
  cases k with
  | zero => exact fun _ _ => hf.1
  | succ k => exact hf.2 k

theorem copyRunIn_eq {len : ℕ} (hlen : 0 < len) : copyRunIn s sEnd dEnd len src dst out =
      if src + len ≤ sEnd ∧ dst + len ≤ dEnd then some (copyRun s len src dst out) else none := by
  induction len generalizing src dst out with
  | zero => omega
  | succ len ih =>
    unfold copyRunIn copyRun
    rcases Nat.eq_zero_or_pos len with rfl | hpos
    · rfl
    · rw [ih hpos]
      split_ifs <;> first | rfl | omega

theorem fillRunIn_eq {len : ℕ} (hlen : 0 < len) : fillRunIn dEnd len dst out =
      if dst + len ≤ dEnd then some (fillRun len dst out) else none := by
  induction len generalizing dst out with
  | zero => omega
  | succ len ih =>
    unfold fillRunIn fillRun
    rcases Nat.eq_zero_or_pos len with rfl | hpos
    · rfl
    · rw [ih hpos]
      split_ifs <;> first | rfl | omega

open Classical in
/-- With enough iterations the loop ends, inside of the buffers exactly when the chunks fit. -/
theorem unzleLoopIn_eq {n : ℕ} (hn : dEnd ≤ dst + n) : unzleLoopIn s sEnd dEnd lim n src dst out =
      if ChunksFit s sEnd dEnd lim (src, dst) then some (unzleLoop s sEnd dEnd lim n src dst out)
      else none := by
  induction n generalizing src dst out with
  | zero =>
    rw [if_pos (chunksFit_end (by omega)), unzleLoopIn, if_neg (by omega)]
    rfl
  | succ n ih =>
    unfold unzleLoopIn unzleLoop
    by_cases hg : src < sEnd ∧ dst < dEnd
    · have hiff := @chunksFit_iff s sEnd dEnd lim (src, dst) hg
      dsimp only [chunkEnd] at hiff ⊢
      split at hiff
      · next hlit =>
        rw [if_pos hlit, if_pos hlit, copyRunIn_eq (by omega)]
        split_ifs with h1 h2 h2
        · exact (ih (by omega)).trans (if_pos (hiff.1 h2).2)
        · exact (ih (by omega)).trans (if_neg fun h3 => h2 (hiff.2 ⟨h1, h3⟩))
        · exact absurd (hiff.1 h2).1 h1
        · rfl
      · next hfill =>
        rw [if_neg hfill, if_neg hfill, fillRunIn_eq (by omega)]
        split_ifs with h1 h2 h2
        · exact (ih (by omega)).trans (if_pos (hiff.1 h2).2)
        · exact (ih (by omega)).trans (if_neg fun h3 => h2 (hiff.2 ⟨⟨hg.1, h1⟩, h3⟩))
        · exact absurd (hiff.1 h2).1.2 h1
        · rfl
    · rw [if_neg hg, if_neg hg, if_pos (chunksFit_end hg)]

theorem unzleLoop_agree {n : ℕ} {out' : Buf} (h : Agree dst out out') :
    (unzleLoop s sEnd dEnd lim n src dst out).1 = (unzleLoop s sEnd dEnd lim n src dst out').1 ∧
      Agree (unzleLoop s sEnd dEnd lim n src dst out).1 (unzleLoop s sEnd dEnd lim n src dst out).2
        (unzleLoop s sEnd dEnd lim n src dst out').2 := by
  induction n generalizing src dst out out' with
  | zero => exact ⟨rfl, h⟩
  | succ n ih =>
    unfold unzleLoop
    split
    · dsimp only
      split
      · refine ih fun x hx => ?_
        rw [copyRun_spec, copyRun_spec]
        split
        · rfl
        · exact h x (by omega)
      · refine ih fun x hx => ?_
        rw [fillRun_spec, fillRun_spec]
        split
        · rfl
        · exact h x (by omega)
    · exact ⟨rfl, h⟩

/-- `zle_decompress` ends and keeps to its buffers, and a return of zero says that all of the
destination was written, exactly when every chunk that begins before both ends is inside of
them. -/
theorem zle_decompress_safe_iff (s dst : Buf) (sLen dLen lim : ℕ) :
    (∃ r, zleDecompressIn s dst sLen dLen lim = some r ∧ r = zleDecompress s dst sLen dLen lim ∧
      (r.1 = 0 → ∀ dst', Agree dLen (zleDecompress s dst' sLen dLen lim).2 r.2)) ↔
      ChunksFit s sLen dLen lim (0, 0) := by
  unfold zleDecompressIn
  rw [unzleLoopIn_eq (by omega)]
  constructor
  · rintro ⟨r, hr, -⟩
    by_contra hfit
    rw [if_neg hfit] at hr
    cases hr
  intro hfit
  rw [if_pos hfit]
  refine ⟨_, rfl, rfl, fun hz dst' => ?_⟩
  have h0 : Agree 0 dst' dst := fun x hx => absurd hx (Nat.not_lt_zero x)
  obtain ⟨h1, h2⟩ := @unzleLoop_agree s dst' sLen dLen lim 0 0 dLen dst h0
  have hd : (unzleLoop s sLen dLen lim dLen 0 0 dst).1 = dLen := by
    by_contra hne
    simp only [if_neg hne] at hz
    omega
  rwa [h1, hd] at h2

/-- A source of one byte that announces six. -/
theorem zle_decompress_reads_on : zleDecompressIn (fun _ => 5) (fun _ => 0) 1 8 64 = none := rfl

end Osol.Zfs.Compress
