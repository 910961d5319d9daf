import Osol.Lib.Endian

/-!
# `zap_byteswap`

A block of a ZAP object that was written by a machine of the other byte order has the bytes
of its fields reversed. `zap_byteswap` finds out from the first word which block it has, in
either byte order; a pointer-table block has no mark of its own there.
-/

namespace Osol.Zfs.Zap

open Osol.Lib List Nat

/-! ## The source -/

def zbtLeaf : ℕ := 2 ^ 63

def zbtHeader : ℕ := 2 ^ 63 + 1

def zbtMicro : ℕ := 2 ^ 63 + 3

def mzapEntLen : ℕ := 64

/-- `mzap_byteswap`: three words of the header, and two fields of each entry. -/
def mzapByteswap (e : Endian) (buf : Buf) (size : ℕ) : Buf :=
  let buf := swapField e buf 0 8
  let buf := swapField e buf 8 8
  let buf := swapField e buf 16 8
  let max := size / mzapEntLen - 1
  (range max).foldl (fun buf i =>
    let buf := swapField e buf (64 + mzapEntLen * i) 8
    swapField e buf (64 + mzapEntLen * i + 8) 4) buf

variable (bs : ℕ)

/-- `ZAP_LEAF_HASH_NUMENTRIES`. -/
def leafHashNumentries : ℕ := 2 ^ (bs - 5)

def leafChunksize : ℕ := 24

/-- `ZAP_LEAF_NUMCHUNKS`. -/
def leafNumchunks : ℕ := (2 ^ bs - 2 * leafHashNumentries bs) / leafChunksize - 2

/-- The offset of `ZAP_LEAF_CHUNK`. -/
def leafChunk (bs i : ℕ) : ℕ := 48 + 2 * leafHashNumentries bs + leafChunksize * i

def chunkFree : Byte := 253

def chunkEntry : Byte := 252

def chunkArray : Byte := 251

/-- The body of the loop over the chunks; another type only fails an assertion. -/
def chunkByteswap (e : Endian) (buf : Buf) (o : ℕ) : Buf :=
  let type := buf o
  if type = chunkEntry then
    let buf := swapField e buf o 1
    let buf := swapField e buf (o + 1) 1
    let buf := swapField e buf (o + 2) 2
    let buf := swapField e buf (o + 4) 2
    let buf := swapField e buf (o + 6) 2
    let buf := swapField e buf (o + 8) 2
    let buf := swapField e buf (o + 10) 2
    let buf := swapField e buf (o + 12) 4
    swapField e buf (o + 16) 8
  else if type = chunkFree then
    let buf := swapField e buf o 1
    swapField e buf (o + 22) 2
  else if type = chunkArray then
    let buf := swapField e buf o 1
    swapField e buf (o + 22) 2
  else buf

/-- `zap_leaf_byteswap`; `highbit(size) - 1` is the logarithm. -/
def zapLeafByteswap (e : Endian) (buf : Buf) (size : ℕ) : Buf :=
  let bs := log2 size
  let buf := swapField e buf 0 8
  let buf := swapField e buf 16 8
  let buf := swapField e buf 24 4
  let buf := swapField e buf 28 2
  let buf := swapField e buf 30 2
  let buf := swapField e buf 32 2
  let buf := swapField e buf 34 2
  let buf := (range (leafHashNumentries bs)).foldl
    (fun buf i => swapField e buf (48 + 2 * i) 2) buf
  (range (leafNumchunks bs)).foldl (fun buf i => chunkByteswap e buf (leafChunk bs i)) buf

def byteswapUint64Array (e : Endian) (buf : Buf) (size : ℕ) : Buf :=
  (range (size >>> 3)).foldl (fun buf i => swapField e buf (8 * i) 8) buf

def fzapByteswap (e : Endian) (buf : Buf) (size : ℕ) : Buf :=
  let blockType := load e buf 0 8
  if blockType = zbtLeaf ∨ blockType = bswap 8 zbtLeaf then zapLeafByteswap e buf size
  else byteswapUint64Array e buf size

/-- `zap_byteswap` on a machine with byte order `e`. -/
def zapByteswap (e : Endian) (buf : Buf) (size : ℕ) : Buf :=
  let blockType := load e buf 0 8
  if blockType = zbtMicro ∨ blockType = bswap 8 zbtMicro then mzapByteswap e buf size
  else fzapByteswap e buf size

/-! ## The blocks -/

/-- The blocks of a ZAP object. -/
inductive BlockKind where
  | micro
  | header
  | leaf
  | ptrtbl
  deriving DecidableEq

/-- The members of a `mzap_ent_phys_t` that are wider than a byte. -/
def entFields (o : ℕ) : List Field := [(o, 8), (o + 8, 4), (o + 12, 2)]

/-- The members of a `zap_leaf_chunk_t`, which its type tells. -/
def chunkFields (type : Byte) (o : ℕ) : List Field :=
  if type = chunkEntry then
    [(o, 1), (o + 1, 1), (o + 2, 2), (o + 4, 2), (o + 6, 2), (o + 8, 2), (o + 10, 2), (o + 12, 4),
      (o + 16, 8)]
  else if type = chunkFree ∨ type = chunkArray then [(o, 1), (o + 22, 2)]
  else []

def leafHeaderFields : List Field :=
  [(0, 8), (8, 8), (16, 8), (24, 4), (28, 2), (30, 2), (32, 2), (34, 2)]

def hashFields : List Field :=
  (range (leafHashNumentries bs)).flatMap fun i => [(48 + 2 * i, 2)]

/-- An array of 64-bit words. -/
def wordFields (n : ℕ) : List Field := (range n).flatMap fun i => [(8 * i, 8)]

variable (k : BlockKind)

/-- The members of a block with contents `b`. -/
def layout (size : ℕ) (b : Buf) : List Field :=
  match k with
  | .micro =>
    wordFields 8 ++ (range (size / mzapEntLen - 1)).flatMap fun i => entFields (64 + mzapEntLen * i)
  | .leaf =>
    let bs := log2 size
    (leafHeaderFields ++ hashFields bs) ++
      (range (leafNumchunks bs)).flatMap fun i =>
        chunkFields (b (leafChunk bs i)) (leafChunk bs i)
  | .header => wordFields (size / 8)
  | .ptrtbl => wordFields (size / 8)

/-- A block as a machine of the other byte order has it. -/
def opposite (e : Endian) (k : BlockKind) (size : ℕ) (b : Buf) : Buf :=
  swapAll e (layout k size b) b

/-- The sizes: a microzap has any number of sectors, the blocks of a fat ZAP are a power of
two. -/
def ValidSize (size : ℕ) : Prop :=
  match k with
  | .micro => 0 < size ∧ 512 ∣ size
  | _ => ∃ bs, 9 ≤ bs ∧ size = 2 ^ bs

/-- A block in the byte order of the machine: its mark, zeroes in the padding, and chunks of
the three types. -/
def WellFormed (e : Endian) (k : BlockKind) (size : ℕ) (b : Buf) : Prop :=
  match k with
  | .micro => load e b 0 8 = zbtMicro ∧ (∀ x, 24 ≤ x → x < 64 → b x = 0) ∧
      ∀ i < size / mzapEntLen - 1, ∀ x < 2, b (64 + mzapEntLen * i + 12 + x) = 0
  | .header => load e b 0 8 = zbtHeader
  | .leaf => load e b 0 8 = zbtLeaf ∧ (∀ x, 8 ≤ x → x < 16 → b x = 0) ∧
      ∀ i < leafNumchunks (log2 size), b (leafChunk (log2 size) i) = chunkFree ∨
        b (leafChunk (log2 size) i) = chunkEntry ∨ b (leafChunk (log2 size) i) = chunkArray
  | .ptrtbl => True

/-! ## Layouts -/

variable {e : Endian} {size : ℕ} {b : Buf}

theorem wordFields_separate (n : ℕ) : Separate (wordFields n) ∧ Within 0 (0 + 8 * n) (wordFields n) := by
  refine rows_separate 0 8 (fun i => pairwise_singleton _ _) (fun i f hf => ?_) n
  obtain rfl := mem_singleton.1 hf
  omega

theorem chunkFields_separate (type : Byte) (o : ℕ) : Separate (chunkFields type o) := by
  unfold chunkFields Separate
  split
  · simp
  · split <;> simp

theorem chunkFields_within (type : Byte) (o : ℕ) : Within o (o + 24) (chunkFields type o) := by
  unfold chunkFields Within
  split
  · simp
  · split <;> simp

theorem hashFields_separate : Separate (hashFields bs) ∧ Within 48 (leafChunk bs 0) (hashFields bs) := by
  refine rows_separate 48 2 (fun i => pairwise_singleton _ _) (fun i f hf => ?_) _
  obtain rfl := mem_singleton.1 hf
  omega

theorem leafHead_separate (fs : List Field) (bs : ℕ) (ha : Separate fs) (hw : Within 0 48 fs) :
    Separate (fs ++ hashFields bs) ∧ Within 0 (leafChunk bs 0) (fs ++ hashFields bs) := by
  obtain ⟨h1, h2⟩ := hashFields_separate bs
  refine ⟨ha.append h1 hw h2, hw.append h2 (by omega) ?_⟩
  unfold leafChunk
  omega

theorem leafChunks_separate (g : ℕ → Byte) :
    Separate ((range (leafNumchunks bs)).flatMap fun i => chunkFields (g i) (leafChunk bs i)) ∧
      Within (leafChunk bs 0) (leafChunk bs (leafNumchunks bs))
        ((range (leafNumchunks bs)).flatMap fun i => chunkFields (g i) (leafChunk bs i)) := by
  refine rows_separate (leafChunk bs 0) leafChunksize (fun i => chunkFields_separate _ _)
    (fun i => ?_) (leafNumchunks bs)
  have := chunkFields_within (g i) (leafChunk bs i)
  exact this

theorem leafBlock_separate {fs : List Field} (g : ℕ → Byte) (ha : Separate fs)
    (hw : Within 0 48 fs) :
    Separate (fs ++ hashFields bs ++ (range (leafNumchunks bs)).flatMap fun i =>
      chunkFields (g i) (leafChunk bs i)) := by
  obtain ⟨h1, h2⟩ := leafHead_separate fs bs ha hw
  obtain ⟨h3, h4⟩ := leafChunks_separate bs g
  exact h1.append h3 h2 h4

/-! ## What each function reverses -/

/-- The fields `mzap_byteswap` reverses. -/
def microSwapped (size : ℕ) : List Field :=
  [(0, 8), (8, 8), (16, 8)] ++ (range (size / mzapEntLen - 1)).flatMap fun i =>
    [(64 + mzapEntLen * i, 8), (64 + mzapEntLen * i + 8, 4)]

/-- The fields `zap_leaf_byteswap` reverses when the chunks have the types `g`. -/
def leafSwapped (g : ℕ → Byte) : List Field :=
  ([(0, 8), (16, 8), (24, 4), (28, 2), (30, 2), (32, 2), (34, 2)] ++ hashFields bs) ++
  (range (leafNumchunks bs)).flatMap fun i => chunkFields (g i) (leafChunk bs i)

theorem mzapByteswap_eq (e : Endian) (b : Buf) (size : ℕ) :
    mzapByteswap e b size = swapAll e (microSwapped size) b := by
  unfold mzapByteswap microSwapped swapAll
  rw [foldl_append, foldl_flatMap]
  rfl

theorem byteswapUint64Array_eq (e : Endian) (b : Buf) (size : ℕ) :
    byteswapUint64Array e b size = swapAll e (wordFields (size / 8)) b := by
  unfold byteswapUint64Array wordFields swapAll
  rw [foldl_flatMap, shiftRight_eq_div_pow]
  rfl

theorem chunkByteswap_eq (e : Endian) (b : Buf) (o : ℕ) :
    chunkByteswap e b o = swapAll e (chunkFields (b o) o) b := by
  unfold chunkByteswap chunkFields
  by_cases h1 : b o = chunkEntry
  · simp only [h1, if_true]
    rfl
  by_cases h2 : b o = chunkFree
  · simp only [h2, if_neg (show chunkFree ≠ chunkEntry by decide), true_or, if_true]
    rfl
  by_cases h3 : b o = chunkArray
  · simp only [h3, if_neg (show chunkArray ≠ chunkEntry by decide),
      if_neg (show chunkArray ≠ chunkFree by decide), or_true, if_true]
    rfl
  · simp only [h1, h2, h3, or_self, if_false]
    rfl

theorem chunks_eq (e : Endian) (b : Buf) (bs n : ℕ) :
    (range n).foldl (fun b i => chunkByteswap e b (leafChunk bs i)) b =
    swapAll e ((range n).flatMap fun i =>
        chunkFields (b (leafChunk bs i)) (leafChunk bs i)) b := by
  induction n with
  | zero => rfl
  | succ n ih =>
    have htype : swapAll e ((range n).flatMap fun i =>
        chunkFields (b (leafChunk bs i)) (leafChunk bs i)) b (leafChunk bs n) =
        b (leafChunk bs n) := by
      refine swapAll_of_not fun f hf => ?_
      obtain ⟨i, hi, hf⟩ := mem_flatMap.1 hf
      have hlt := mem_range.1 hi
      refine (chunkFields_within _ _).not_covers (.inr ?_) f hf
      unfold leafChunk leafChunksize
      omega
    rw [range_succ, foldl_append, ih, flatMap_append, swapAll_append]
    simp only [foldl_cons, foldl_nil, flatMap_cons, flatMap_nil, append_nil]
    rw [chunkByteswap_eq, htype]

theorem zapLeafByteswap_eq (e : Endian) (b : Buf) (size : ℕ) : zapLeafByteswap e b size =
      swapAll e (leafSwapped (log2 size) fun i => b (leafChunk (log2 size) i)) b := by
  have hhead : zapLeafByteswap e b size = (range (leafNumchunks (log2 size))).foldl
        (fun b i => chunkByteswap e b (leafChunk (log2 size) i))
        (swapAll e ([(0, 8), (16, 8), (24, 4), (28, 2), (30, 2), (32, 2), (34, 2)] ++
          hashFields (log2 size)) b) := by
    unfold zapLeafByteswap hashFields swapAll
    rw [foldl_append, foldl_flatMap]
    rfl
  have hwithin := (leafHead_separate
    [(0, 8), (16, 8), (24, 4), (28, 2), (30, 2), (32, 2), (34, 2)] (log2 size)
    (by simp [Separate]) (by simp [Within])).2
  have htype : ∀ i, swapAll e ([(0, 8), (16, 8), (24, 4), (28, 2), (30, 2), (32, 2), (34, 2)] ++
      hashFields (log2 size)) b (leafChunk (log2 size) i) =
      b (leafChunk (log2 size) i) := by
    intro i
    refine swapAll_of_not (hwithin.not_covers (.inr ?_))
    unfold leafChunk
    omega
  rw [hhead, chunks_eq]
  simp only [htype]
  rw [← swapAll_append]
  rfl

/-! ## The block that is found -/

theorem layout_first (hsize : ValidSize k size) (b : Buf) :
    Separate (layout k size b) ∧ (0, 8) ∈ layout k size b := by
  have hword : ∀ n, 0 < n → ((0, 8) : Field) ∈ wordFields n := fun n hn =>
    mem_flatMap.2 ⟨0, mem_range.2 hn, mem_singleton.2 rfl⟩
  have hfat : ∀ bs, 9 ≤ bs → 0 < 2 ^ bs / 8 := by
    intro bs hbs
    have : 2 ^ 9 ≤ 2 ^ bs := Nat.pow_le_pow_right (by omega) hbs
    omega
  cases k with
  | micro =>
    refine ⟨?_, mem_append_left _ (hword 8 (by omega))⟩
    obtain ⟨h1, h2⟩ := wordFields_separate 8
    obtain ⟨h3, h4⟩ := rows_separate 64 mzapEntLen
      (g := fun i => entFields (64 + mzapEntLen * i)) (fun i => by simp [entFields, Separate])
      (fun i f hf => by
        simp only [entFields, mem_cons, not_mem_nil, or_false] at hf
        unfold mzapEntLen at *
        rcases hf with rfl | rfl | rfl <;> simp only <;> omega) (size / mzapEntLen - 1)
    exact h1.append h3 h2 h4
  | leaf =>
    exact ⟨leafBlock_separate _ (fun i => b (leafChunk (log2 size) i))
      (by simp [Separate, leafHeaderFields]) (by simp [Within, leafHeaderFields]),
      mem_append_left _ (mem_append_left _ mem_cons_self)⟩
  | header =>
    obtain ⟨bs, hbs, rfl⟩ := hsize
    exact ⟨(wordFields_separate _).1, hword _ (hfat bs hbs)⟩
  | ptrtbl =>
    obtain ⟨bs, hbs, rfl⟩ := hsize
    exact ⟨(wordFields_separate _).1, hword _ (hfat bs hbs)⟩

theorem load_opposite (e : Endian) (k : BlockKind) (hsize : ValidSize k size) (b : Buf) :
    load e (opposite e k size b) 0 8 = bswap 8 (load e b 0 8) := by
  obtain ⟨ha, hmem⟩ := layout_first k hsize b
  refine load_mirror e fun i hi => ?_
  have hc : Field.Covers (0, 8) (0 + i) := ⟨by omega, by simp only; omega⟩
  unfold opposite
  rw [swapAll_of_mem ha hmem hc]
  unfold Field.mirror
  congr 1
  omega

/-! ## The right function -/

theorem words_exact (e : Endian) (n : ℕ) (b : Buf) :
    swapAll e (wordFields n) (swapAll e (wordFields n) b) = b :=
  swapAll_swapAll (wordFields_separate n).1 (wordFields_separate n).1 (fun _ h => h) fun _ h => .inl h

theorem microSwapped_separate (size : ℕ) : Separate (microSwapped size) := by
  have hhead : Within 0 64 [(0, 8), (8, 8), (16, 8)] := by simp [Within]
  obtain ⟨h3, h4⟩ := rows_separate 64 mzapEntLen
    (g := fun i => [(64 + mzapEntLen * i, 8), (64 + mzapEntLen * i + 8, 4)])
    (fun i => by simp [Separate])
    (fun i f hf => by
      simp only [mem_cons, not_mem_nil, or_false] at hf
      unfold mzapEntLen at *
      rcases hf with rfl | rfl <;> simp only <;> omega) (size / mzapEntLen - 1)
  exact Separate.append (by simp [Separate]) h3 hhead h4

theorem micro_exact (hsize : ValidSize .micro size) (hwf : WellFormed e .micro size b) :
    mzapByteswap e (opposite e .micro size b) size = b := by
  obtain ⟨-, hpad, hent⟩ := hwf
  rw [mzapByteswap_eq]
  refine swapAll_swapAll (layout_first _ hsize b).1 (microSwapped_separate size) ?_ ?_
  · intro g hg
    rcases mem_append.1 hg with hg | hg
    · refine mem_append_left _ ?_
      simp only [mem_cons, not_mem_nil, or_false] at hg
      rcases hg with rfl | rfl | rfl <;> decide
    · refine mem_append_right _ ?_
      obtain ⟨i, hi, hg⟩ := mem_flatMap.1 hg
      refine mem_flatMap.2 ⟨i, hi, ?_⟩
      simp only [mem_cons, not_mem_nil, or_false] at hg
      rcases hg with rfl | rfl <;> simp [entFields]
  · intro f hf
    rcases mem_append.1 hf with hf | hf
    · obtain ⟨i, hi, hf⟩ := mem_flatMap.1 hf
      obtain rfl := mem_singleton.1 hf
      have hi := mem_range.1 hi
      by_cases h3 : i < 3
      · refine .inl (mem_append_left _ ?_)
        rcases (by omega : i = 0 ∨ i = 1 ∨ i = 2) with rfl | rfl | rfl <;> simp
      · refine .inr fun x hx => hpad x ?_ ?_
        · exact Nat.le_trans (by omega) hx.1
        · exact Nat.lt_of_lt_of_le hx.2 (by simp only; omega)
    · obtain ⟨i, hi, hf⟩ := mem_flatMap.1 hf
      simp only [entFields, mem_cons, not_mem_nil, or_false] at hf
      rcases hf with rfl | rfl | rfl
      · exact .inl (mem_append_right _ (mem_flatMap.2 ⟨i, hi, by simp⟩))
      · exact .inl (mem_append_right _ (mem_flatMap.2 ⟨i, hi, by simp⟩))
      · refine .inr fun x hx => ?_
        unfold Field.Covers at hx
        have := hent i (mem_range.1 hi) (x - (64 + mzapEntLen * i + 12)) (by omega)
        rwa [Nat.add_sub_cancel' hx.1] at this

theorem leafSwapped_congr {bs : ℕ} {g g' : ℕ → Byte} (h : ∀ i < leafNumchunks bs, g i = g' i) :
    leafSwapped bs g = leafSwapped bs g' := by
  unfold leafSwapped
  congr 1
  refine congrArg flatten (map_congr_left fun i hi => ?_)
  rw [h i (mem_range.1 hi)]

theorem leaf_exact (hsize : ValidSize .leaf size) (hwf : WellFormed e .leaf size b) :
    zapLeafByteswap e (opposite e .leaf size b) size = b := by
  obtain ⟨-, hpad, hchunk⟩ := hwf
  have hlay := (layout_first .leaf hsize b).1
  -- the types are single bytes, so they are the same in the other byte order
  have htype : ∀ i < leafNumchunks (log2 size),
      opposite e .leaf size b (leafChunk (log2 size) i) = b (leafChunk (log2 size) i) := by
    intro i hi
    have hmem : ((leafChunk (log2 size) i, 1) : Field) ∈ layout .leaf size b := by
      refine mem_append_right _ (mem_flatMap.2 ⟨i, mem_range.2 hi, ?_⟩)
      unfold chunkFields
      rcases hchunk i hi with h | h | h <;> rw [h] <;> simp [chunkEntry, chunkFree, chunkArray]
    unfold opposite
    rw [swapAll_of_mem hlay hmem ⟨Nat.le_refl _, lt_succ_self _⟩]
    unfold Field.mirror
    simp
  rw [zapLeafByteswap_eq, leafSwapped_congr htype]
  refine swapAll_swapAll hlay ?_ ?_ ?_
  · exact leafBlock_separate _ _ (by simp [Separate]) (by simp [Within])
  · intro g hg
    rcases mem_append.1 hg with hg | hg
    · refine mem_append_left _ ?_
      rcases mem_append.1 hg with hg | hg
      · refine mem_append_left _ ?_
        simp only [mem_cons, not_mem_nil, or_false] at hg
        rcases hg with rfl | rfl | rfl | rfl | rfl | rfl | rfl <;> decide
      · exact mem_append_right _ hg
    · exact mem_append_right _ hg
  · intro f hf
    rcases mem_append.1 hf with hf | hf
    · rcases mem_append.1 hf with hf | hf
      · unfold leafHeaderFields at hf
        by_cases h8 : f = (8, 8)
        · subst h8
          exact .inr fun x hx => hpad x hx.1 hx.2
        · refine .inl (mem_append_left _ (mem_append_left _ ?_))
          simp only [mem_cons, not_mem_nil, or_false, h8, false_or] at hf ⊢
          exact hf
      · exact .inl (mem_append_left _ (mem_append_right _ hf))
    · exact .inl (mem_append_right _ hf)

/-! ## The first word -/

/-- The first words for which `zap_byteswap` takes a block to be a leaf or a microzap. -/
def tags : List ℕ := [zbtLeaf, bswap 8 zbtLeaf, zbtMicro, bswap 8 zbtMicro]

theorem bswap_eq_iff {v w : ℕ} (hv : v < 256 ^ 8) (hw : w < 256 ^ 8) : bswap 8 v = w ↔ v = bswap 8 w := by
  constructor
  · rintro rfl
    exact (bswap_bswap hv).symm
  · rintro rfl
    exact bswap_bswap hw

theorem zapByteswap_opposite (hsize : ValidSize k size) (b : Buf) :
    zapByteswap e (opposite e k size b) size =
      if load e b 0 8 = zbtMicro ∨ load e b 0 8 = bswap 8 zbtMicro then
        mzapByteswap e (opposite e k size b) size
      else if load e b 0 8 = zbtLeaf ∨ load e b 0 8 = bswap 8 zbtLeaf then
        zapLeafByteswap e (opposite e k size b) size
      else byteswapUint64Array e (opposite e k size b) size := by
  have hw := load_lt e b 0 8
  have hm : zbtMicro < 256 ^ 8 ∧ bswap 8 zbtMicro < 256 ^ 8 := by decide
  have hl : zbtLeaf < 256 ^ 8 ∧ bswap 8 zbtLeaf < 256 ^ 8 := by decide
  unfold zapByteswap fzapByteswap
  simp only [load_opposite e k hsize b, bswap_eq_iff hw hm.1, bswap_eq_iff hw hm.2,
    bswap_eq_iff hw hl.1, bswap_eq_iff hw hl.2, bswap_bswap hm.1, bswap_bswap hl.1]
  simp only [or_comm]

theorem zapByteswap_exact {k : BlockKind} (hsize : ValidSize k size) (hwf : WellFormed e k size b)
    (htag : k = .ptrtbl → load e b 0 8 ∉ tags) :
    zapByteswap e (opposite e k size b) size = b := by
  rw [zapByteswap_opposite k hsize b]
  cases k with
  | micro =>
    rw [if_pos (.inl hwf.1)]
    exact micro_exact hsize hwf
  | leaf =>
    rw [hwf.1, if_neg (by decide), if_pos (.inl rfl)]
    exact leaf_exact hsize hwf
  | header =>
    have h0 : load e b 0 8 = zbtHeader := hwf
    rw [h0, if_neg (by decide), if_neg (by decide), byteswapUint64Array_eq]
    exact words_exact e _ b
  | ptrtbl =>
    have hnot := htag rfl
    simp only [tags, mem_cons, not_mem_nil, or_false, not_or] at hnot
    rw [if_neg (by tauto), if_neg (by tauto), byteswapUint64Array_eq]
    exact words_exact e _ b

theorem opposite_ptrtbl (hsize : ValidSize .ptrtbl size) {i : ℕ} (hi : i < 64) :
    opposite e .ptrtbl size b (8 * i) = b (8 * i + 7) := by
  obtain ⟨bs, hbs, rfl⟩ := hsize
  have hlt : i < 2 ^ bs / 8 := by
    have : 2 ^ 9 ≤ 2 ^ bs := Nat.pow_le_pow_right (by omega) hbs
    omega
  refine (swapAll_of_mem (wordFields_separate _).1
    (mem_flatMap.2 ⟨i, mem_range.2 hlt, mem_singleton.2 rfl⟩)
    ⟨Nat.le_refl _, by simp⟩).trans ?_
  unfold Field.mirror
  congr 1
  omega

/-- A pointer table whose first word is a tag, and that is not the same in both orders in its
second and fourth words, is not converted. -/
theorem zapByteswap_tagged (hsize : ValidSize .ptrtbl size) (htag : load e b 0 8 ∈ tags)
    (h8 : b 8 ≠ b 15) (h24 : b 24 ≠ b 31) :
    zapByteswap e (opposite e .ptrtbl size b) size ≠ b := by
  simp only [tags, mem_cons, not_mem_nil, or_false] at htag
  rw [zapByteswap_opposite .ptrtbl hsize b]
  intro heq
  by_cases hm : load e b 0 8 = zbtMicro ∨ load e b 0 8 = bswap 8 zbtMicro
  · -- `mz_pad` is left as it is
    rw [if_pos hm, mzapByteswap_eq] at heq
    have hx := congrFun heq 24
    rw [swapAll_of_not, show 24 = 8 * 3 from rfl, opposite_ptrtbl hsize (by omega)] at hx
    · exact h24 hx.symm
    intro f hf
    unfold Field.Covers
    rcases mem_append.1 hf with hf | hf
    · simp only [mem_cons, not_mem_nil, or_false] at hf
      rcases hf with rfl | rfl | rfl <;> decide
    · obtain ⟨i, -, hf⟩ := mem_flatMap.1 hf
      simp only [mem_cons, not_mem_nil, or_false] at hf
      rcases hf with rfl | rfl <;> simp only <;> omega
  · -- `lh_pad1` is left as it is
    rw [if_neg hm, if_pos (by tauto), zapLeafByteswap_eq] at heq
    have hx := congrFun heq 8
    rw [swapAll_of_not, show 8 = 8 * 1 from rfl, opposite_ptrtbl hsize (by omega)] at hx
    · exact h8 hx.symm
    intro f hf
    rcases mem_append.1 hf with hf | hf
    · rcases mem_append.1 hf with hf | hf
      · simp only [mem_cons, not_mem_nil, or_false] at hf
        rcases hf with rfl | rfl | rfl | rfl | rfl | rfl | rfl <;> decide
      · exact (hashFields_separate _).2.not_covers (.inl (by omega)) f hf
    · refine (leafChunks_separate _ _).2.not_covers (.inl ?_) f hf
      unfold leafChunk
      omega

/-- `zap_byteswap` converts every block of a kind and with a first word, just if it is not a
pointer table that begins like a leaf or a microzap. -/
theorem zap_byteswap_exact_iff (e : Endian) (k : BlockKind) (size w : ℕ)
    (hsize : ValidSize k size) : (∀ b, WellFormed e k size b → load e b 0 8 = w →
      zapByteswap e (opposite e k size b) size = b) ↔ (k = .ptrtbl → w ∉ tags) := by
  constructor
  · rintro h rfl htag
    have hlt : w < 256 ^ 8 := by
      simp only [tags, mem_cons, not_mem_nil, or_false] at htag
      rcases htag with rfl | rfl | rfl | rfl <;> decide
    have hload := load_store e (fun x => if x % 8 = 0 then 1 else 0) 0 hlt
    refine zapByteswap_tagged hsize (by rwa [hload]) ?_ ?_ (h _ trivial hload)
    · simp [store, putBytes]
    · simp [store, putBytes]
  · rintro htag b hwf rfl
    exact zapByteswap_exact hsize hwf htag

/-- A pointer table of block 2, on a big-endian machine. -/
def ptrsTwo : Buf := fun x => if x % 8 = 7 then 2 else 0

theorem zap_byteswap_exact_iff_block_two : load .big ptrsTwo 0 8 = 2 ∧
      zapByteswap .big (opposite .big .ptrtbl (2 ^ 14) ptrsTwo) (2 ^ 14) = ptrsTwo :=
  ⟨by decide, (zap_byteswap_exact_iff .big .ptrtbl (2 ^ 14) 2 ⟨14, by decide, rfl⟩).2
    (fun _ => by decide) ptrsTwo trivial (by decide)⟩

/-- A pointer table of the blocks from 128 on, on a little-endian machine. -/
def ptrsFrom128 : Buf := fun x => if x % 8 = 0 then BitVec.ofNat 8 (128 + x / 8 % 64) else 0

/-- Its first word is the mark of a leaf in the other byte order. -/
theorem zap_byteswap_misses_ptrtbl :
    ValidSize .ptrtbl (2 ^ 14) ∧ WellFormed .little .ptrtbl (2 ^ 14) ptrsFrom128 ∧
      load .little ptrsFrom128 0 8 = 128 ∧
      zapByteswap .little (opposite .little .ptrtbl (2 ^ 14) ptrsFrom128) (2 ^ 14) ≠ ptrsFrom128 :=
  ⟨⟨14, by decide, rfl⟩, trivial, by decide,
    zapByteswap_tagged ⟨14, by decide, rfl⟩ (by decide) (by decide) (by decide)⟩

end Osol.Zfs.Zap
