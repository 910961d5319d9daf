import Osol.Zfs.Compress.Lzjb
import Osol.Zfs.Compress.Zle

/-!
# The round trip

`zio_compress_data` pads what the algorithm left to whole sectors, which the decompression
does not look at.
-/

namespace Osol.Zfs.Compress

open Osol.Lib List

variable {c : ZioCompress} {addr : ℕ} {s : Buf} {sLen : ℕ}

theorem ciCompress_readBack {dst F : Buf} {dLen r : ℕ}
    (hr : ciCompress c addr s dst sLen dLen = (r, F)) (hlt : r < sLen) :
    0 < r ∧ (∀ x, dLen ≤ x → F x = dst x) ∧ ∀ G gLen out, Agree r G F → r ≤ gLen →
        ∃ out', zioDecompressData c G out gLen sLen = (0, out') ∧ Agree sLen out' s := by
  cases c with
  | lzjb =>
    obtain ⟨h1, -, h3, h4⟩ := lzjbCompress_readBack hr hlt
    exact ⟨h1, h3, fun G gLen out hG _ => h4 G out hG⟩
  | zle =>
    obtain ⟨h1, -, h3, h4⟩ := zleCompress_readBack (by omega) (by omega) hr hlt
    exact ⟨h1, h3, h4⟩

theorem compressLimit_lt (h : compressLimit sLen ≠ 0) : compressLimit sLen < sLen := by
  unfold compressLimit spaMinblocksize at *
  omega

theorem sectorRoundup_spec (n : ℕ) : n ≤ sectorRoundup n ∧ spaMinblocksize ∣ sectorRoundup n ∧
      ∀ m, spaMinblocksize ∣ m → n ≤ m → sectorRoundup n ≤ m := by
  unfold sectorRoundup spaMinblocksize
  refine ⟨by omega, by omega, fun m hm hle => ?_⟩
  omega

theorem all_wordIsZero (h8 : 8 ∣ sLen) : (range (sLen / 8)).all (wordIsZero s) = true ↔ ∀ x < sLen,
    s x = 0 := by
  simp only [all_eq_true, mem_range, wordIsZero_iff]
  constructor
  · intro h x hx
    have := h (x / 8) (by omega) (x % 8) (by omega)
    rwa [Nat.div_add_mod] at this
  · intro h i hi j hj
    exact h _ (by omega)

theorem zioCompressData_eq (c : ZioCompress) (addr : ℕ) (dst : Buf) (hz : ¬ ∀ x < sLen, s x = 0)
    (h8 : 8 ∣ sLen) (hlt : (zioCompressData c addr s dst sLen).1 < sLen) :
    ∃ r F, ciCompress c addr s dst sLen (compressLimit sLen) = (r, F) ∧ r < sLen ∧
    sectorRoundup r ≤ compressLimit sLen ∧
      zioCompressData c addr s dst sLen = (sectorRoundup r, bzero F r (sectorRoundup r)) := by
  unfold zioCompressData at hlt ⊢
  rw [if_neg (by rwa [all_wordIsZero h8])] at hlt ⊢
  by_cases hd : compressLimit sLen = 0
  · rw [if_pos hd] at hlt
    exact absurd hlt (Nat.lt_irrefl _)
  rw [if_neg hd] at hlt ⊢
  generalize ciCompress c addr s dst sLen (compressLimit sLen) = res at hlt ⊢
  obtain ⟨r, F⟩ := res
  simp only at hlt ⊢
  by_cases hover : compressLimit sLen < r
  · rw [if_pos hover] at hlt
    exact absurd hlt (Nat.lt_irrefl _)
  rw [if_neg hover] at hlt ⊢
  have hdl := compressLimit_lt hd
  obtain ⟨h1, -, h3⟩ := sectorRoundup_spec r
  refine ⟨r, F, rfl, by omega, h3 _ ⟨_, Nat.mul_comm _ _⟩ (by omega), ?_⟩
  split
  · rfl
  · have heq : sectorRoundup r = r := by omega
    rw [heq]
    refine Prod.ext rfl ?_
    funext x
    exact (if_neg (by omega)).symm

/-- What `zio_compress_data` stores in less than the source is within the destination, in
whole sectors, and decompresses to the source; it stores nothing for zeroes only. -/
theorem zio_compress_round_trip (c : ZioCompress) (addr : ℕ) (s dst : Buf) (sLen : ℕ)
    (halign : spaMinblocksize ∣ sLen) :
    (∀ r F, zioCompressData c addr s dst sLen = (r, F) → 0 < r → r < sLen →
      (∀ x, compressLimit sLen ≤ x → F x = dst x) ∧ spaMinblocksize ∣ r ∧
        ∀ out, ∃ out', zioDecompressData c F out r sLen = (0, out') ∧ Agree sLen out' s) ∧
    ((zioCompressData c addr s dst sLen).1 = 0 → ∀ x < sLen, s x = 0) := by
  have h8 : 8 ∣ sLen := Nat.dvd_trans (by decide) halign
  constructor
  · intro r F hrF hpos hlt
    have hz : ¬ ∀ x < sLen, s x = 0 := by
      intro hz
      unfold zioCompressData at hrF
      rw [if_pos ((all_wordIsZero h8).2 hz)] at hrF
      obtain ⟨rfl, -⟩ := Prod.mk.inj hrF
      omega
    obtain ⟨r', F', hci, hr', hround, heq⟩ := zioCompressData_eq c addr dst
      hz h8 (by rw [hrF]; exact hlt)
    rw [hrF] at heq
    cases heq
    obtain ⟨-, hrest, hread⟩ := ciCompress_readBack hci hr'
    obtain ⟨h1, h2, -⟩ := sectorRoundup_spec r'
    refine ⟨fun x hx => ?_, h2, fun out => hread _ _ out (fun x hx => ?_) h1⟩
    · rw [← hrest x hx]
      exact if_neg (by omega)
    · exact if_neg (by omega)
  · intro h0
    by_contra hz
    have hsLen : 0 < sLen := by
      rcases Nat.eq_zero_or_pos sLen with rfl | hpos
      · exact absurd (fun x hx => absurd hx (Nat.not_lt_zero x)) hz
      · exact hpos
    obtain ⟨r, F, hci, hr, -, heq⟩ := zioCompressData_eq c addr dst hz h8 (by rw [h0]; exact hsLen)
    rw [heq] at h0
    have := (ciCompress_readBack hci hr).1
    have := (sectorRoundup_spec r).1
    omega

def oneByte : Buf := fun x => if x = 0 then 1 else 0

theorem zio_compress_round_trip_one_byte :
    ∃ F, zioCompressData .zle 0 oneByte (fun _ => 7) 1024 = (512, F) ∧
      ∃ out, zioDecompressData .zle F (fun _ => 7) 512 1024 = (0, out) ∧ Agree 1024 out oneByte := by
  have hlen : (zioCompressData .zle 0 oneByte (fun _ => 7) 1024).1 = 512 := by decide +kernel
  generalize hres : zioCompressData .zle 0 oneByte (fun _ => 7) 1024 = res at hlen
  obtain ⟨r, F⟩ := res
  obtain rfl : r = 512 := hlen
  exact ⟨F, rfl, ((zio_compress_round_trip .zle 0 oneByte (fun _ => 7) 1024 (by decide)).1 512 F
    hres (by decide) (by decide)).2.2 _⟩

end Osol.Zfs.Compress
