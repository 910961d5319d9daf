import Osol.Lib.Buffer

/-!
# Byte order

Words in a buffer, in the byte order of a machine, and the reversal of fields in place. A
field is an offset with a width.
-/

namespace Osol.Lib

open List Option Nat

/-! ## Words -/

/-- The byte order of a machine. -/
inductive Endian where
  | little
  | big
  deriving DecidableEq

/-- The number with these bytes, the least significant first. -/
def ofBytes : List Byte → ℕ
  | [] => 0
  | b :: l => b.toNat + 256 * ofBytes l

theorem ofBytes_cons (b : Byte) (l : List Byte) : ofBytes (b :: l) = b.toNat + 256 * ofBytes l := rfl

/-- The `n` low bytes of a number. -/
def toBytes : ℕ → ℕ → List Byte
  | 0, _ => []
  | n + 1, v => BitVec.ofNat 8 v :: toBytes n (v / 256)

@[simp] theorem length_toBytes (n v : ℕ) : (toBytes n v).length = n := by
  induction n generalizing v with
  | zero => rfl
  | succ n ih => simp [toBytes, ih]

theorem toBytes_ofBytes (l : List Byte) : toBytes l.length (ofBytes l) = l := by
  induction l with
  | nil => rfl
  | cons b l ih =>
    have hhead : BitVec.ofNat 8 (ofBytes (b :: l)) = b := by
      apply BitVec.eq_of_toNat_eq
      rw [BitVec.toNat_ofNat, ofBytes_cons]
      omega
    have htail : ofBytes (b :: l) / 256 = ofBytes l := by
      rw [ofBytes_cons]
      omega
    rw [length_cons, toBytes, hhead, htail, ih]

theorem ofBytes_toBytes (n v : ℕ) : ofBytes (toBytes n v) = v % 256 ^ n := by
  induction n generalizing v with
  | zero => simp [toBytes, ofBytes, mod_one]
  | succ n ih =>
    rw [toBytes, ofBytes_cons, ih, Nat.pow_succ', mod_mul]
    rfl

def bytesAt (b : Buf) (o n : ℕ) : List Byte := (range n).map fun i => b (o + i)

@[simp] theorem length_bytesAt (b : Buf) (o n : ℕ) : (bytesAt b o n).length = n := by
  simp [bytesAt]

theorem bytesAt_add (b : Buf) (o m n : ℕ) : bytesAt b o (m + n) = bytesAt b o m ++ bytesAt b (o + m) n := by
  simp only [bytesAt, range_add, map_append, List.map_map, Nat.add_assoc]
  rfl

def putBytes (b : Buf) (o : ℕ) (l : List Byte) : Buf :=
  fun x => if o ≤ x ∧ x < o + l.length then l.getD (x - o) 0 else b x

@[simp] theorem putBytes_nil (b : Buf) (o : ℕ) : putBytes b o [] = b := by
  funext x
  exact if_neg (by rw [length_nil]; omega)

theorem putBytes_append (b : Buf) (o : ℕ) (l k : List Byte) :
    putBytes (putBytes b o l) (o + l.length) k = putBytes b o (l ++ k) := by
  funext x
  unfold putBytes
  rw [length_append]
  by_cases hk : o + l.length ≤ x ∧ x < o + l.length + k.length
  · rw [if_pos hk, if_pos (by omega), getD_eq_getElem?_getD, getD_eq_getElem?_getD,
      List.getElem?_append_right (by omega), sub_add_eq]
  · rw [if_neg hk]
    by_cases hl : o ≤ x ∧ x < o + l.length
    · rw [if_pos hl, if_pos (by omega), getD_eq_getElem?_getD, getD_eq_getElem?_getD,
        List.getElem?_append_left (by omega)]
    · rw [if_neg hl, if_neg (by omega)]

variable {n : ℕ}

theorem bytesAt_putBytes (b : Buf) (o : ℕ) {l : List Byte} (h : n ≤ l.length) :
    bytesAt (putBytes b o l) o n = l.take n := by
  refine ext_getElem (by simp [h]) fun i hi _ => ?_
  rw [length_bytesAt] at hi
  simp only [bytesAt, putBytes, getElem_map, getElem_range, getElem_take]
  rw [if_pos (by omega), Nat.add_sub_cancel_left, getD_eq_getElem?_getD,
    List.getElem?_eq_getElem (by omega), getD_some]

variable (e : Endian)

/-- Bytes in memory order from bytes with the least significant first, or back. -/
def Endian.order (l : List Byte) : List Byte :=
  match e with
  | .little => l
  | .big => l.reverse

theorem Endian.order_order (l : List Byte) : e.order (e.order l) = l := by
  cases e
  · rfl
  · exact reverse_reverse l

theorem Endian.order_reverse (l : List Byte) : e.order l.reverse = (e.order l).reverse := by
  cases e <;> rfl

@[simp] theorem Endian.length_order (l : List Byte) : (e.order l).length = l.length := by
  cases e
  · rfl
  · exact length_reverse

def load (b : Buf) (o n : ℕ) : ℕ := ofBytes (e.order (bytesAt b o n))

def store (b : Buf) (o n v : ℕ) : Buf := putBytes b o (e.order (toBytes n v))

def bswap (n v : ℕ) : ℕ := ofBytes (toBytes n v).reverse

/-- `x = BSWAP(x)` for the field of `n` bytes at `o`. -/
def swapField (b : Buf) (o n : ℕ) : Buf := store e b o n (bswap n (load e b o n))

theorem toBytes_load (b : Buf) (o n : ℕ) : toBytes n (load e b o n) = e.order (bytesAt b o n) := by
  have := toBytes_ofBytes (e.order (bytesAt b o n))
  rwa [Endian.length_order, length_bytesAt] at this

variable {v : ℕ}

theorem bswap_bswap (h : v < 256 ^ n) : bswap n (bswap n v) = v := by
  have hr := toBytes_ofBytes (toBytes n v).reverse
  rw [length_reverse, length_toBytes] at hr
  unfold bswap
  rw [hr, reverse_reverse, ofBytes_toBytes, mod_eq_of_lt h]

theorem ofBytes_lt (l : List Byte) : ofBytes l < 256 ^ l.length := by
  induction l with
  | nil => exact Nat.one_pos
  | cons b l ih =>
    rw [ofBytes_cons, length_cons, Nat.pow_succ']
    omega

theorem load_lt (b : Buf) (o n : ℕ) : load e b o n < 256 ^ n := by
  have := ofBytes_lt (e.order (bytesAt b o n))
  rwa [Endian.length_order, length_bytesAt] at this

theorem load_store (b : Buf) (o : ℕ) (h : v < 256 ^ n) : load e (store e b o n v) o n = v := by
  have hbytes : bytesAt (store e b o n v) o n = e.order (toBytes n v) := by
    have hlen : (e.order (toBytes n v)).length = n := by simp
    rw [store, bytesAt_putBytes b o (Nat.le_of_eq hlen.symm), take_of_length_le (Nat.le_of_eq hlen)]
  unfold load
  rw [hbytes, e.order_order, ofBytes_toBytes, mod_eq_of_lt h]

variable {c : Buf} {o : ℕ}

theorem bytesAt_congr {b : Buf} (h : ∀ x, o ≤ x → x < o + n → b x = c x) :
    bytesAt b o n = bytesAt c o n := by
  refine map_congr_left fun i hi => ?_
  have := mem_range.1 hi
  exact h _ (by omega) (by omega)

theorem load_congr {b : Buf} (h : ∀ x, o ≤ x → x < o + n → b x = c x) : load e b o n = load e c o n := by
  unfold load
  rw [bytesAt_congr h]

theorem putBytes_bytesAt (b : Buf) (o n : ℕ) : putBytes b o (bytesAt b o n) = b := by
  funext x
  unfold putBytes
  rw [length_bytesAt]
  split
  · have hlt : x - o < (range n).length := by
      rw [length_range]
      omega
    unfold bytesAt
    rw [getD_eq_getElem?_getD, List.getElem?_map, List.getElem?_eq_getElem hlt]
    simp only [getElem_range, map_some, getD_some]
    congr 1
    omega
  · rfl

theorem store_apply_of_not {e : Endian} {b : Buf} {x : ℕ} (h : x < o ∨ o + n ≤ x) :
    store e b o n v x = b x := by
  unfold store putBytes
  rw [Endian.length_order, length_toBytes, if_neg (by omega)]

theorem load_mirror {b : Buf} (h : ∀ i < n, c (o + i) = b (o + (n - 1 - i))) :
    load e c o n = bswap n (load e b o n) := by
  have hbytes : bytesAt c o n = (bytesAt b o n).reverse := by
    refine ext_getElem (by simp) fun i h1 h2 => ?_
    rw [length_bytesAt] at h1
    simp only [bytesAt, getElem_map, getElem_range, getElem_reverse, length_map, length_range]
    exact h i h1
  unfold bswap
  rw [toBytes_load, ← e.order_reverse, ← hbytes]
  rfl

theorem swapField_apply (b : Buf) (o n x : ℕ) :
    swapField e b o n x = if o ≤ x ∧ x < o + n then b (o + (o + n - 1 - x)) else b x := by
  have hr : toBytes n (bswap n (load e b o n)) = (e.order (bytesAt b o n)).reverse := by
    have := toBytes_ofBytes (e.order (bytesAt b o n)).reverse
    rw [length_reverse, Endian.length_order, length_bytesAt] at this
    rw [bswap, toBytes_load, this]
  unfold swapField store
  rw [hr, e.order_reverse, e.order_order]
  unfold putBytes
  simp only [length_reverse, length_bytesAt]
  split
  · have hlt : x - o < (bytesAt b o n).reverse.length := by
      rw [length_reverse, length_bytesAt]
      omega
    rw [getD_eq_getElem?_getD, List.getElem?_eq_getElem hlt, getD_some, getElem_reverse]
    simp only [bytesAt, getElem_map, getElem_range, length_map, length_range]
    congr 1
    omega
  · rfl

/-! ## Fields -/

/-- An offset and a width. -/
abbrev Field := ℕ × ℕ

def Field.Covers (f : Field) (x : ℕ) : Prop := f.1 ≤ x ∧ x < f.1 + f.2

instance (f : Field) (x : ℕ) : Decidable (f.Covers x) := inferInstanceAs (Decidable (_ ∧ _))

/-- The place a byte of a field comes to. -/
def Field.mirror (f : Field) (x : ℕ) : ℕ := f.1 + (f.1 + f.2 - 1 - x)

theorem Field.covers_mirror {f : Field} {x : ℕ} (h : f.Covers x) : f.Covers (f.mirror x) := by
  unfold Field.Covers Field.mirror at *
  omega

theorem Field.mirror_mirror {f : Field} {x : ℕ} (h : f.Covers x) : f.mirror (f.mirror x) = x := by
  unfold Field.Covers Field.mirror at *
  omega

def swapAll (fs : List Field) (b : Buf) : Buf :=
  fs.foldl (fun b f => swapField e b f.1 f.2) b

def Separate (fs : List Field) : Prop := fs.Pairwise fun f g => f.1 + f.2 ≤ g.1

variable {e : Endian} {fs gs : List Field} {b : Buf} {f : Field} {x : ℕ}

theorem swapAll_append (fs gs : List Field) (b : Buf) :
    swapAll e (fs ++ gs) b = swapAll e gs (swapAll e fs b) :=
  foldl_append ..

theorem swapAll_of_not (h : ∀ f ∈ fs, ¬ f.Covers x) : swapAll e fs b x = b x := by
  induction fs generalizing b with
  | nil => rfl
  | cons f fs ih =>
    show swapAll e fs (swapField e b f.1 f.2) x = b x
    rw [ih fun g hg => h g (mem_cons_of_mem f hg), swapField_apply]
    exact if_neg (h f mem_cons_self)

theorem swapAll_of_mem (ha : Separate fs) (hf : f ∈ fs) (hx : f.Covers x) :
    swapAll e fs b x = b (f.mirror x) := by
  induction fs generalizing b with
  | nil => exact absurd hf not_mem_nil
  | cons g fs ih =>
    obtain ⟨hg, ha⟩ := pairwise_cons.1 ha
    show swapAll e fs (swapField e b g.1 g.2) x = b (f.mirror x)
    rcases mem_cons.1 hf with rfl | hmem
    · have hrest : ∀ k ∈ fs, ¬ Field.Covers k x := by
        intro k hk hkx
        have := hg k hk
        unfold Field.Covers at hx hkx
        omega
      rw [swapAll_of_not hrest, swapField_apply]
      exact if_pos hx
    · have hm := Field.covers_mirror hx
      have := hg f hmem
      unfold Field.Covers at hm
      rw [ih ha hmem, swapField_apply]
      exact if_neg (by omega)

/-- Reversing the fields `gs` undoes the reversal of `fs`, if what `gs` leaves out is zero. -/
theorem swapAll_swapAll (ha : Separate fs) (hb : Separate gs) (hsub : ∀ g ∈ gs, g ∈ fs)
    (hzero : ∀ f ∈ fs, f ∈ gs ∨ ∀ x, f.Covers x → b x = 0) :
    swapAll e gs (swapAll e fs b) = b := by
  funext x
  by_cases hg : ∃ g ∈ gs, g.Covers x
  · obtain ⟨g, hmem, hx⟩ := hg
    rw [swapAll_of_mem hb hmem hx, swapAll_of_mem ha (hsub g hmem) (Field.covers_mirror hx),
      Field.mirror_mirror hx]
  have hnot : ∀ g ∈ gs, ¬ g.Covers x := fun g hmem hx => hg ⟨g, hmem, hx⟩
  rw [swapAll_of_not hnot]
  by_cases hf : ∃ f ∈ fs, f.Covers x
  · obtain ⟨f, hmem, hx⟩ := hf
    rcases hzero f hmem with hin | hz
    · exact absurd hx (hnot f hin)
    · rw [swapAll_of_mem ha hmem hx, hz _ (Field.covers_mirror hx), hz _ hx]
  · exact swapAll_of_not fun f hmem hx => hf ⟨f, hmem, hx⟩

/-- The fields lie between two offsets. -/
def Within (lo hi : ℕ) (fs : List Field) : Prop := ∀ f ∈ fs, lo ≤ f.1 ∧ f.1 + f.2 ≤ hi

theorem Within.not_covers {lo hi : ℕ} (h : Within lo hi fs) (hx : x < lo ∨ hi ≤ x) :
    ∀ f ∈ fs, ¬ f.Covers x := by
  intro f hf hc
  have := h f hf
  unfold Field.Covers at hc
  omega

theorem Within.append {a m c : ℕ} (h : Within a m fs) (h' : Within m c gs) (hle : a ≤ m)
    (hle' : m ≤ c) : Within a c (fs ++ gs) := by
  intro f hf
  rcases mem_append.1 hf with hf | hf
  · have := h f hf
    omega
  · have := h' f hf
    omega

theorem Separate.append {a m c : ℕ} (ha : Separate fs) (hb : Separate gs) (h : Within a m fs)
    (h' : Within m c gs) : Separate (fs ++ gs) := by
  refine pairwise_append.2 ⟨ha, hb, fun f hf g hg => ?_⟩
  have := h f hf
  have := h' g hg
  omega

theorem rows_separate (base w : ℕ) {g : ℕ → List Field} (hg : ∀ i, Separate (g i))
    (hw : ∀ i, Within (base + w * i) (base + w * (i + 1)) (g i)) (n : ℕ) :
    Separate ((range n).flatMap g) ∧ Within base (base + w * n) ((range n).flatMap g) := by
  induction n with
  | zero => exact ⟨Pairwise.nil, fun f hf => absurd hf not_mem_nil⟩
  | succ n ih =>
    rw [range_succ, flatMap_append]
    have hn : (flatMap g [n]) = g n := by simp
    rw [hn]
    have hle : base + w * n ≤ base + w * (n + 1) :=
      Nat.add_le_add_left (Nat.mul_le_mul_left w (le_succ n)) base
    exact ⟨ih.1.append (hg n) ih.2 (hw n), ih.2.append (hw n) (Nat.le_add_right _ _) hle⟩

end Osol.Lib
