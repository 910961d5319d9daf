import Osol.Lib.Checked
import Osol.Lib.Endian
import Osol.Lib.IterSum

/-!
# Fletcher checksums

`fletcher_4_native` and its siblings: four `uint64_t` accumulators, each the sum of the one
before it, over the 32-bit words of a buffer. In closed form a word counts with a binomial
coefficient of its distance from the end, modulo `2^64`; up to three words of a block that is
at most 128K can be told from the first three accumulators, which the differences do not wrap
around.
-/

namespace Osol.Zfs.Checksum

open Osol.Lib Finset

structure ZioCksum where
  a : ℕ
  b : ℕ
  c : ℕ
  d : ℕ
  deriving DecidableEq

/-- The body of the loop. -/
def fletcher4Step (s : ZioCksum) (f : ℕ) : ZioCksum :=
  let a := uadd s.a f
  let b := uadd s.b a
  let c := uadd s.c b
  let d := uadd s.d c
  ⟨a, b, c, d⟩

variable (f : ℕ → ℕ)

/-- The loop over the first `n` words. -/
def fletcher4 (n : ℕ) (s : ZioCksum) : ZioCksum :=
  (List.range n).foldl (fun s i => fletcher4Step s (f i)) s

variable (e : Endian)

def word (buf : Buf) (i : ℕ) : ℕ := load e buf (4 * i) 4

def fletcher4Native (buf : Buf) (size : ℕ) : ZioCksum :=
  fletcher4 (word e buf) (size / 4) ⟨0, 0, 0, 0⟩

def fletcher4Byteswap (buf : Buf) (size : ℕ) : ZioCksum :=
  fletcher4 (fun i => bswap 4 (word e buf i)) (size / 4) ⟨0, 0, 0, 0⟩

def fletcher4IncrementalNative (buf : Buf) (size : ℕ) (zcp : ZioCksum) : ZioCksum :=
  fletcher4 (word e buf) (size / 4) zcp

def fletcher4IncrementalByteswap (buf : Buf) (size : ℕ) (zcp : ZioCksum) : ZioCksum :=
  fletcher4 (fun i => bswap 4 (word e buf i)) (size / 4) zcp

theorem fletcher4_succ (n : ℕ) (s : ZioCksum) :
    fletcher4 f (n + 1) s = fletcher4Step (fletcher4 f n s) (f n) := by
  unfold fletcher4
  rw [List.range_succ, List.foldl_append]
  rfl

/-! ## The series -/

theorem fletcher4_eq (n : ℕ) : fletcher4 f n ⟨0, 0, 0, 0⟩ =
    ⟨iterSum 0 f n % 2 ^ 64, iterSum 1 f n % 2 ^ 64, iterSum 2 f n % 2 ^ 64, iterSum 3 f n % 2 ^ 64⟩ := by
  induction n with
  | zero => rfl
  | succ n ih =>
    rw [fletcher4_succ, ih, iterSum_zero_succ, iterSum_succ_succ 0, iterSum_succ_succ 1,
      iterSum_succ_succ 2]
    simp only [fletcher4Step, uadd, iterSum_zero_succ, iterSum_succ_succ 0, iterSum_succ_succ 1,
      Nat.mod_add_mod, Nat.add_mod_mod]

/-- The order of an accumulator. -/
def ZioCksum.get (s : ZioCksum) : Fin 4 → ℕ
  | 0 => s.a
  | 1 => s.b
  | 2 => s.c
  | 3 => s.d

theorem fletcher4_get (n : ℕ) (j : Fin 4) :
    (fletcher4 f n ⟨0, 0, 0, 0⟩).get j = iterSum j.val f n % 2 ^ 64 := by
  rw [fletcher4_eq]
  match j with
  | 0 => rfl
  | 1 => rfl
  | 2 => rfl
  | 3 => rfl

/-- A sum of sums, counted from the end as in the comment of the source. -/
theorem iterSum_eq_series {j : ℕ} {w : ℕ → ℕ} (hw : ∀ i, (i + j).choose j = w (i + 1)) (n : ℕ) :
    iterSum j f n = ∑ i ∈ Icc 1 n, w i * f (n - i) := by
  refine sum_nbij' (fun i => n - i) (fun i => n - i) ?_ ?_ ?_ ?_ fun i hi => ?_
  all_goals try simp only [mem_range, mem_Icc]; omega
  have hi := mem_range.1 hi
  rw [hw, show n - 1 - i + 1 = n - i by omega, show n - (n - i) = i by omega]
  rfl

theorem six_mul_choose_three (m : ℕ) : 6 * (m + 3).choose 3 = (m + 1) * (m + 3) * (m + 2) := by
  have h := Nat.descFactorial_eq_factorial_mul_choose (m + 3) 3
  rw [show Nat.factorial 3 = 6 from rfl] at h
  rw [← h]
  simp only [Nat.descFactorial]
  rw [show m + 3 - 0 = m + 3 by omega, show m + 3 - 1 = m + 2 by omega, show m + 3 - 2 = m + 1 by omega]
  ring

def series (n : ℕ) : ZioCksum :=
  ⟨(∑ i ∈ Icc 1 n, f (n - i)) % 2 ^ 64, (∑ i ∈ Icc 1 n, i * f (n - i)) % 2 ^ 64,
    (∑ i ∈ Icc 1 n, i * (i + 1) / 2 * f (n - i)) % 2 ^ 64,
    (∑ i ∈ Icc 1 n, i * (i + 1) * (i + 2) / 6 * f (n - i)) % 2 ^ 64⟩

theorem fletcher4_series (n : ℕ) : fletcher4 f n ⟨0, 0, 0, 0⟩ = series f n := by
  have h2 : ∀ i, (i + 2).choose 2 = (i + 1) * (i + 1 + 1) / 2 := fun i => by
    refine (Nat.div_eq_of_eq_mul_right (by decide) ?_).symm
    rw [two_mul_choose_two, Nat.mul_comm]
  have h3 : ∀ i, (i + 3).choose 3 = (i + 1) * (i + 1 + 1) * (i + 1 + 2) / 6 := fun i => by
    refine (Nat.div_eq_of_eq_mul_right (by decide) ?_).symm
    rw [six_mul_choose_three, Nat.mul_right_comm]
  rw [fletcher4_eq, iterSum_eq_series f (w := fun _ => 1) fun _ => Nat.choose_zero_right _,
    iterSum_eq_series f (w := id) fun _ => Nat.choose_one_right _,
    iterSum_eq_series f (w := fun i => i * (i + 1) / 2) h2,
    iterSum_eq_series f (w := fun i => i * (i + 1) * (i + 2) / 6) h3]
  simp only [one_mul]
  rfl

/-! ## Fletcher-2 -/

/-- The body of the loop: sums over the words at even positions, and over those at odd ones. -/
def fletcher2Step (s : ZioCksum) (f0 f1 : ℕ) : ZioCksum :=
  let a0 := uadd s.a f0
  let a1 := uadd s.b f1
  ⟨a0, a1, uadd s.c a0, uadd s.d a1⟩

/-- `ip` goes on by two words while it is below the end, so that an odd number is rounded up. -/
def fletcher2 (n : ℕ) : ZioCksum :=
  (List.range ((n + 1) / 2)).foldl (fun s i => fletcher2Step s (f (2 * i)) (f (2 * i + 1))) ⟨0, 0, 0, 0⟩

def word64 (buf : Buf) (i : ℕ) : ℕ := load e buf (8 * i) 8

def fletcher2Native (buf : Buf) (size : ℕ) : ZioCksum := fletcher2 (word64 e buf) (size / 8)

def fletcher2Byteswap (buf : Buf) (size : ℕ) : ZioCksum :=
  fletcher2 (fun i => bswap 8 (word64 e buf i)) (size / 8)

/-- The series of the comment, for each half of the words. -/
def series2 (n : ℕ) : ZioCksum :=
  ⟨(∑ i ∈ Icc 1 n, f (2 * (n - i))) % 2 ^ 64, (∑ i ∈ Icc 1 n, f (2 * (n - i) + 1)) % 2 ^ 64,
    (∑ i ∈ Icc 1 n, i * f (2 * (n - i))) % 2 ^ 64, (∑ i ∈ Icc 1 n, i * f (2 * (n - i) + 1)) % 2 ^ 64⟩

theorem fletcher2_eq (n : ℕ) :
    fletcher2 f n = let s0 := fletcher4 (fun i => f (2 * i)) ((n + 1) / 2) ⟨0, 0, 0, 0⟩
    let s1 := fletcher4 (fun i => f (2 * i + 1)) ((n + 1) / 2) ⟨0, 0, 0, 0⟩
    ⟨s0.a, s1.a, s0.b, s1.b⟩ := by
  unfold fletcher2
  induction (n + 1) / 2 with
  | zero => rfl
  | succ m ih =>
    rw [List.range_succ, List.foldl_append, ih, fletcher4_succ, fletcher4_succ]
    rfl

theorem fletcher2_series (n : ℕ) : fletcher2 f n = series2 f ((n + 1) / 2) := by
  rw [fletcher2_eq, fletcher4_series, fletcher4_series]
  rfl

theorem fletcher2_congr {f g : ℕ → ℕ} {n : ℕ} (heven : Even n) (h : ∀ i < n, f i = g i) :
    fletcher2 f n = fletcher2 g n := by
  obtain ⟨k, rfl⟩ := heven
  refine List.foldl_ext _ _ _ fun s i hi => ?_
  have hi := List.mem_range.1 hi
  rw [h (2 * i) (by omega), h (2 * i + 1) (by omega)]

/-! ## Parts and byte order -/

theorem fletcher4_add (m n : ℕ) (s : ZioCksum) :
    fletcher4 f (m + n) s = fletcher4 (fun i => f (m + i)) n (fletcher4 f m s) := by
  induction n with
  | zero => rfl
  | succ n ih => rw [← Nat.add_assoc, fletcher4_succ, fletcher4_succ, ih]

theorem fletcher4_congr {f g : ℕ → ℕ} {n : ℕ} (h : ∀ i < n, f i = g i) (s : ZioCksum) :
    fletcher4 f n s = fletcher4 g n s := by
  induction n with
  | zero => rfl
  | succ n ih => rw [fletcher4_succ, fletcher4_succ, ih fun i hi => h i (by omega), h n (by omega)]

def inPieces (incremental : Buf → ℕ → ZioCksum → ZioCksum) (buf : Buf) (sizes : List ℕ) : ZioCksum :=
  (sizes.foldl (fun p size => (p.1 + size, incremental (fun x => buf (p.1 + x)) size p.2))
    (0, ⟨0, 0, 0, 0⟩)).2

theorem word_add (buf : Buf) (m i : ℕ) : word e (fun x => buf (4 * m + x)) i = word e buf (m + i) := by
  unfold word load bytesAt
  simp only [Nat.mul_add, Nat.add_assoc]

theorem inPieces_eq (g : ℕ → ℕ) (buf : Buf) (sizes : List ℕ) (h : ∀ n ∈ sizes, 4 ∣ n) :
    inPieces (fun b n => fletcher4 (fun i => g (word e b i)) (n / 4)) buf sizes =
      fletcher4 (fun i => g (word e buf i)) (sizes.sum / 4) ⟨0, 0, 0, 0⟩ := by
  have hrun : ∀ m, sizes.foldl (fun p n => (p.1 + n,
      fletcher4 (fun i => g (word e (fun x => buf (p.1 + x)) i)) (n / 4) p.2))
      (4 * m, fletcher4 (fun i => g (word e buf i)) m ⟨0, 0, 0, 0⟩) =
      (4 * m + sizes.sum, fletcher4 (fun i => g (word e buf i)) (m + sizes.sum / 4) ⟨0, 0, 0, 0⟩) := by
    induction sizes with
    | nil => exact fun m => rfl
    | cons n sizes ih =>
      intro m
      obtain ⟨k, rfl⟩ := h n List.mem_cons_self
      have hk : 4 * k / 4 = k := Nat.mul_div_cancel_left k (by decide)
      rw [List.foldl_cons, List.sum_cons]
      simp only [word_add, hk]
      rw [← fletcher4_add (fun i => g (word e buf i)), ← Nat.mul_add,
        ih (fun n hn => h n (List.mem_cons_of_mem _ hn)), Nat.mul_add_div (by decide)]
      simp only [Nat.mul_add, Nat.add_assoc]
  have h0 := hrun 0
  rw [Nat.zero_add (sizes.sum / 4)] at h0
  exact congrArg Prod.snd h0

/-- The first `n` words of `w` bytes with their bytes the other way round. -/
def swapWords (w n : ℕ) (buf : Buf) : Buf := fun x =>
  if x < w * n then buf (w * (x / w) + (w - 1 - x % w)) else buf x

theorem load_swapWords {w n i : ℕ} (hi : i < n) (buf : Buf) :
    load e (swapWords w n buf) (w * i) w = bswap w (load e buf (w * i) w) := by
  refine load_mirror e fun k hk => ?_
  have hlt : w * i + k < w * n := by
    calc w * i + k < w * (i + 1) := by rw [Nat.mul_succ]; omega
      _ ≤ w * n := Nat.mul_le_mul_left w hi
  unfold swapWords
  rw [if_pos hlt, Nat.mul_add_div (by omega), Nat.div_eq_of_lt hk, Nat.mul_add_mod,
    Nat.mod_eq_of_lt hk, Nat.add_zero]

/-- The checksum of a buffer is that of its pieces, a byteswapped one that of the swapped buffer,
where fletcher-2 needs an even number of words, and each is given by the series. -/
theorem fletcher_variants (e : Endian) (buf : Buf) : (∀ sizes : List ℕ, (∀ size ∈ sizes, 4 ∣ size) →
      inPieces (fletcher4IncrementalNative e) buf sizes = fletcher4Native e buf sizes.sum ∧
      inPieces (fletcher4IncrementalByteswap e) buf sizes = fletcher4Byteswap e buf sizes.sum) ∧
    ∀ size,
      fletcher4Byteswap e buf size = fletcher4Native e (swapWords 4 (size / 4) buf) size ∧
      (Even (size / 8) →
        fletcher2Byteswap e buf size = fletcher2Native e (swapWords 8 (size / 8) buf) size) ∧
      fletcher4Native e buf size = series (word e buf) (size / 4) ∧
      fletcher4Byteswap e buf size = series (fun i => bswap 4 (word e buf i)) (size / 4) ∧
      (Even (size / 8) → fletcher2Native e buf size = series2 (word64 e buf) (size / 8 / 2) ∧
        fletcher2Byteswap e buf size = series2 (fun i => bswap 8 (word64 e buf i)) (size / 8 / 2)) := by
  refine ⟨fun sizes h => ⟨inPieces_eq e id buf sizes h, inPieces_eq e (bswap 4) buf sizes h⟩,
    fun size => ⟨?_, fun heven => ?_, fletcher4_series _ _, fletcher4_series _ _, fun heven => ?_⟩⟩
  · exact fletcher4_congr (fun i hi => (load_swapWords e hi buf).symm) _
  · exact fletcher2_congr heven fun i hi => (load_swapWords e hi buf).symm
  · have hhalf : (size / 8 + 1) / 2 = size / 8 / 2 := by
      obtain ⟨k, hk⟩ := heven
      omega
    rw [← hhalf]
    exact ⟨fletcher2_series _ _, fletcher2_series _ _⟩

def squares : Buf := fun i => BitVec.ofNat 8 (i * i + 1)

theorem fletcher_variants_squares : (∀ size ∈ [4, 12], 4 ∣ size) ∧ Even (16 / 8) ∧
    inPieces (fletcher4IncrementalNative .little) squares [4, 12] = fletcher4Native .little squares 16 ∧
    fletcher2Byteswap .little squares 16 =
      fletcher2Native .little (swapWords 8 (16 / 8) squares) 16 :=
  have h := fletcher_variants .little squares
  ⟨by decide, by decide, (h.1 [4, 12] (by decide)).1, (h.2 16).2.1 (by decide)⟩

/-- With one 64-bit word the loop of fletcher-2 reads the one behind the buffer, and there is
nothing that says in which byte order. -/
theorem fletcher2Byteswap_odd : fletcher2Byteswap .little (fun x => if x = 8 then 1 else 0) 8 ≠
      fletcher2Native .little (swapWords 8 1 fun x => if x = 8 then 1 else 0) 8 := by
  decide +kernel

/-! ## Small errors -/

/-- The difference of a word. -/
def diff (f g : ℕ → ℕ) (i : ℕ) : ℤ := f i - g i

theorem iterSum_diff (f g : ℕ → ℕ) (j n : ℕ) :
    iterSum j (diff f g) n = ((iterSum j f n : ℕ) : ℤ) - ((iterSum j g n : ℕ) : ℤ) := by
  unfold iterSum diff
  push_cast
  rw [← sum_sub_distrib]
  exact sum_congr rfl fun i _ => by ring

theorem dvd_iterSum {f g : ℕ → ℕ} {n : ℕ} {j : Fin 4}
    (h : (fletcher4 f n ⟨0, 0, 0, 0⟩).get j = (fletcher4 g n ⟨0, 0, 0, 0⟩).get j) :
    (2 ^ 64 : ℤ) ∣ iterSum j.val (diff f g) n := by
  rw [fletcher4_get, fletcher4_get] at h
  rw [iterSum_diff]
  have h' : ((iterSum j.val f n : ℕ) : ℤ) ≡ (iterSum j.val g n : ℕ) [ZMOD (2 ^ 64 : ℕ)] :=
    Int.natCast_modEq_iff.2 h
  exact_mod_cast h'.symm.dvd

def differing (f g : ℕ → ℕ) (n : ℕ) : Finset ℕ := (range n).filter fun i => f i ≠ g i

theorem two_mul_choose_le (m : ℕ) {j : ℕ} (hj : j < 3) : 2 * (m + j).choose j ≤ (m + 2) * (m + 1) := by
  rcases (show j = 0 ∨ j = 1 ∨ j = 2 by omega) with rfl | rfl | rfl
  · rw [Nat.choose_zero_right]
    nlinarith
  · rw [Nat.choose_one_right]
    nlinarith
  · exact (two_mul_choose_two m).le

/-- Of three consecutive numbers up to `2^15 + 2` either the middle one is odd or the others are,
so that with a 32-bit number they do not have 65 twos. -/
theorem not_dvd_of_small {m : ℕ} {δ : ℤ} (hm : m ≤ 32767) (h0 : δ ≠ 0) (hδ : |δ| ≤ 2 ^ 32 - 1) :
    ¬ (2 ^ 64 : ℤ) ∣ ((m + 3).choose 3 : ℕ) * δ := by
  intro hdvd
  have hN := Int.natAbs_dvd_natAbs.2 hdvd
  rw [Int.natAbs_mul, Int.natAbs_natCast, show ((2 : ℤ) ^ 64).natAbs = 2 ^ 64 by rfl] at hN
  generalize hD : δ.natAbs = D at hN
  have hpos : 0 < D := by omega
  have hlt : D < 2 ^ 32 := by
    rw [Int.abs_eq_natAbs] at hδ
    omega
  have hdvd' : 2 ^ 65 ∣ (m + 1) * (m + 3) * (m + 2) * D := by
    rw [← six_mul_choose_three]
    obtain ⟨k, hk⟩ := hN
    exact ⟨3 * k, by rw [Nat.mul_assoc, hk]; ring⟩
  have hco : ∀ x, Odd x → Nat.Coprime (2 ^ 65) x :=
    fun x hx => Nat.Coprime.pow_left 65 (Nat.coprime_two_left.2 hx)
  rcases Nat.even_or_odd m with heven | hodd
  · have hodd : Odd ((m + 1) * (m + 3)) := heven.add_one.mul (heven.add_odd (by decide))
    rw [Nat.mul_assoc] at hdvd'
    have hle := Nat.le_of_dvd (by positivity) ((hco _ hodd).dvd_of_dvd_mul_left hdvd')
    have : (m + 2) * D < 32770 * 2 ^ 32 := Nat.mul_lt_mul'' (by omega) hlt
    omega
  have hodd' : Odd (m + 2) := hodd.add_even (by decide)
  rw [show (m + 1) * (m + 3) * (m + 2) * D = (m + 2) * ((m + 1) * (m + 3) * D) by ring] at hdvd'
  have hle := Nat.le_of_dvd (by positivity) ((hco _ hodd').dvd_of_dvd_mul_left hdvd')
  have h1 : (m + 1) * (m + 3) < 32769 * 32771 := Nat.mul_lt_mul'' (by omega) (by omega)
  have : (m + 1) * (m + 3) * D < 32769 * 32771 * 2 ^ 32 := Nat.mul_lt_mul'' h1 hlt
  omega

section Small

variable {f g : ℕ → ℕ} {n : ℕ} (hf : ∀ i, f i < 2 ^ 32) (hg : ∀ i, g i < 2 ^ 32)

theorem differing_subset : differing f g n ⊆ range n := filter_subset _ _

theorem diff_eq_zero : ∀ i ∈ range n, i ∉ differing f g n → diff f g i = 0 := by
  intro i hi hn
  have heq : f i = g i := by
    by_contra hne
    exact hn (mem_filter.2 ⟨hi, hne⟩)
  rw [diff, heq, sub_self]

include hf hg

theorem abs_diff_le (i : ℕ) : |diff f g i| ≤ 2 ^ 32 - 1 := by
  have := hf i
  have := hg i
  unfold diff
  rw [abs_le]
  omega

theorem iterSum_eq_zero (hn : n ≤ 32768) (hcard : (differing f g n).card ≤ 3) {j : Fin 4}
    (hj : j ≠ 3) (h : (fletcher4 f n ⟨0, 0, 0, 0⟩).get j = (fletcher4 g n ⟨0, 0, 0, 0⟩).get j) :
    iterSum j.val (diff f g) n = 0 := by
  have hle := abs_iterSum_le j.val differing_subset diff_eq_zero (abs_diff_le hf hg) (n := n)
  have hchoose := two_mul_choose_le (n - 1) (show j.val < 3 by omega)
  have hmul : (n - 1 + 2) * (n - 1 + 1) ≤ (32767 + 2) * (32767 + 1) := Nat.mul_le_mul (by omega) (by omega)
  refine Int.eq_zero_of_abs_lt_dvd (dvd_iterSum h) (hle.trans_lt ?_)
  calc ((differing f g n).card : ℤ) * (((n - 1 + j.val).choose j.val : ℕ) * (2 ^ 32 - 1))
      ≤ 3 * (536887296 * (2 ^ 32 - 1)) := by
        gcongr
        · exact_mod_cast hcard
        · omega
    _ < 2 ^ 64 := by norm_num

theorem eq_of_get (hn : n ≤ 32768) (hcard : (differing f g n).card ≤ 3)
    (h : ∀ j, j ≠ 3 → (fletcher4 f n ⟨0, 0, 0, 0⟩).get j = (fletcher4 g n ⟨0, 0, 0, 0⟩).get j) :
    differing f g n = ∅ := by
  rw [eq_empty_iff_forall_notMem]
  intro i hi
  have hzero := fun j hj => iterSum_eq_zero hf hg hn hcard hj (h j hj)
  have hdiff := eq_zero_of_iterSum differing_subset diff_eq_zero hcard (hzero 0 (by decide))
    (hzero 1 (by decide)) (hzero 2 (by decide)) hi
  have hne := (mem_filter.1 hi).2
  unfold diff at hdiff
  omega

theorem get_ne_of_one (hn : n ≤ 32768) (hcard : (differing f g n).card = 1) (j : Fin 4) :
    (fletcher4 f n ⟨0, 0, 0, 0⟩).get j ≠ (fletcher4 g n ⟨0, 0, 0, 0⟩).get j := by
  intro h
  obtain ⟨i, hi⟩ := card_eq_one.1 hcard
  have hmem : i ∈ differing f g n := by simp [hi]
  have hne := (mem_filter.1 hmem).2
  have hdiff : diff f g i ≠ 0 := by
    unfold diff
    omega
  have hsum : iterSum j.val (diff f g) n = ((n - 1 - i + j.val).choose j.val : ℕ) * diff f g i := by
    rw [iterSum_eq_sum _ differing_subset diff_eq_zero, hi, sum_singleton]
  by_cases hj : j = 3
  · subst hj
    have hdvd := dvd_iterSum h
    rw [hsum] at hdvd
    exact not_dvd_of_small (by omega) hdiff (abs_diff_le hf hg i) hdvd
  · have hzero := iterSum_eq_zero hf hg hn (by omega) hj h
    rw [hsum, mul_eq_zero] at hzero
    have hchoose := Nat.choose_pos (Nat.le_add_left j.val (n - 1 - i))
    exact hzero.elim (fun h' => by omega) hdiff

end Small

/-- Up to three wrong words are found in a block that is at most 128K, and one wrong word changes
each of the accumulators. -/
theorem fletcher4_detects (e : Endian) (buf buf' : Buf) (size : ℕ) (hsize : size ≤ 128 * 1024) :
    (0 < (differing (word e buf) (word e buf') (size / 4)).card →
      (differing (word e buf) (word e buf') (size / 4)).card ≤ 3 →
      fletcher4Native e buf size ≠ fletcher4Native e buf' size) ∧
    ((differing (word e buf) (word e buf') (size / 4)).card = 1 →
      ∀ j, (fletcher4Native e buf size).get j ≠ (fletcher4Native e buf' size).get j) := by
  have hf : ∀ i, word e buf i < 2 ^ 32 := fun i => load_lt e buf (4 * i) 4
  have hg : ∀ i, word e buf' i < 2 ^ 32 := fun i => load_lt e buf' (4 * i) 4
  have hn : size / 4 ≤ 32768 := by omega
  refine ⟨fun hpos hcard heq => ?_, fun hone j heq => ?_⟩
  · have := eq_of_get hf hg hn hcard fun j _ => congrArg (ZioCksum.get · j) heq
    rw [this] at hpos
    simp at hpos
  · exact get_ne_of_one hf hg hn hone j heq

theorem fletcher4_detects_one : 8 ≤ 128 * 1024 ∧
    (differing (word .little fun _ => 0) (word .little fun x => if x = 0 then 1 else 0) 2).card = 1 ∧
    ∀ j, (fletcher4Native .little (fun _ => 0) 8).get j ≠
      (fletcher4Native .little (fun x => if x = 0 then 1 else 0) 8).get j :=
  ⟨by decide, by decide +kernel, (fletcher4_detects .little _ _ 8 (by decide)).2 (by decide +kernel)⟩

end Osol.Zfs.Checksum
