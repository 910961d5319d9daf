import Osol.Modes.Basic

/-!
# Counter mode

`ctr.c` and the part of `aes_encrypt_update` that counter mode takes. Each byte of output is
kept with the place of the keystream byte that was XORed into it: a counter block and an
index into its encryption.

`ctr_mode_final` encrypts the counter block for the last bytes of an update and leaves the
counter as it is, so the next update encrypts the same block again.
-/

namespace Osol.Modes.Ctr

open Osol.Lib Function List Nat

/-- A context: the counter block, what is held from the last call, and the masks. -/
structure Ctx where
  cb : Cb
  remainder : List Byte
  lowerMask : BitVec 64
  upperMask : BitVec 64

def ctrInitCtx (count : ℕ) (cb : Cb) : Except Rv Ctx :=
  if count = 0 ∨ 128 < count then .error .mechanismParamInvalid
  else if 64 ≤ count then
    let count := count - 64
    .ok ⟨cb, [], BitVec.allOnes 64,
      if count = 64 then BitVec.allOnes 64 else BitVec.ofNat 64 (2 ^ count - 1)⟩
  else .ok ⟨cb, [], BitVec.ofNat 64 (2 ^ count - 1), 0⟩

/-- The counter is incremented. -/
def next (lowerMask upperMask : BitVec 64) (cb : Cb) : Cb :=
  let lower := bump lowerMask cb.lower
  if bumped lowerMask cb.lower = 0 then ⟨bump upperMask cb.upper, lower⟩ else ⟨cb.upper, lower⟩

/-- A byte of output: where its keystream byte comes from, and its value. -/
abbrev OutByte := (Cb × ℕ) × Byte

/-- Bytes XORed with the encryption of the counter block. -/
def keyed (E : Cipher) (cb : Cb) (block : List Byte) : List OutByte :=
  block.mapIdx fun j p => ((cb, j), p ^^^ (E.enc cb.bytes).getD j 0)

section Update

variable (E : Cipher)

/-- A round of the loop of `ctr_mode_contiguous_blocks`. -/
def step (lowerMask upperMask : BitVec 64) (cb : Cb) (block : List Byte) : Cb × List OutByte :=
  (next lowerMask upperMask cb, keyed E cb block)

def ctrModeContiguousBlocks (c : Ctx) (data : List Byte) : Rv × Ctx × List OutByte :=
  let r := contiguousBlocks .dataLenRange (step E c.lowerMask c.upperMask) c.cb c.remainder data
  (r.1, { c with cb := r.2.1, remainder := r.2.2.1 }, r.2.2.2)

def ctrModeFinal (c : Ctx) (cdLength : ℕ) : Rv × Ctx × List OutByte :=
  if cdLength < c.remainder.length then (.dataLenRange, c, [])
  else (.success, { c with remainder := [] }, keyed E c.cb c.remainder)

def pieces (c : Ctx) : List (List Byte) → Rv × Ctx × List OutByte
  | [] => (.success, c, [])
  | data :: rest =>
    let r := ctrModeContiguousBlocks E c data
    let q := pieces r.2.1 rest
    (if rest = [] then r.1 else q.1, q.2.1, r.2.2 ++ q.2.2)

/-- `aes_encrypt_update` in counter mode. The plaintext comes in pieces, the iovecs or mblks
of the caller; `cdLength` is the length of the output buffer. `cd_miscdata` is `NULL`: the caller
gives no new counter block. -/
def aesEncryptUpdate (c : Ctx) (plaintext : List (List Byte)) (cdLength : ℕ) :
    Rv × Ctx × List OutByte :=
  let outLen := (c.remainder.length + plaintext.flatten.length) / 16 * 16
  if cdLength < outLen then (.bufferTooSmall, c, [])
  else
    let r := pieces E c plaintext
    if 0 < r.2.1.remainder.length then
      let f := ctrModeFinal E r.2.1 cdLength
      (f.1, f.2.1, r.2.2 ++ f.2.2)
    else r

/-- An update: the pieces of the plaintext and the length of the output buffer. -/
abbrev Update := List (List Byte) × ℕ

/-- Updates one after the other: what each returned, and all the output. -/
def updates (c : Ctx) : List Update → List Rv × List OutByte
  | [] => ([], [])
  | u :: us =>
    let r := aesEncryptUpdate E c u.1 u.2
    let q := updates r.2.1 us
    (r.1 :: q.1, r.2.2 ++ q.2)

end Update

/-! ## The counter -/

/-- The counter block as a number. -/
def value (cb : Cb) : ℕ := cb.upper.toNat * 2 ^ 64 + cb.lower.toNat

structure Masks (w : ℕ) (c : Ctx) : Prop where
  lower : c.lowerMask = lowMask (min w 64)
  upper : c.upperMask = lowMask (w - 64)

variable {w : ℕ}

theorem ctrInitCtx_masks {cb : Cb} {c : Ctx} (h : ctrInitCtx w cb = .ok c) :
    0 < w ∧ w ≤ 128 ∧ c.cb = cb ∧ c.remainder = [] ∧ Masks w c := by
  unfold ctrInitCtx at h
  have hones : BitVec.allOnes 64 = lowMask 64 := by decide
  split at h
  · cases h
  split at h
  · next hw =>
    cases h
    refine ⟨by omega, by omega, rfl, rfl, ?_, ?_⟩
    · rwa [Nat.min_eq_right hw]
    · split
      · next h64 => rw [h64, hones]
      · rfl
  · cases h
    refine ⟨by omega, by omega, rfl, rfl, ?_, ?_⟩
    · rw [Nat.min_eq_left (by omega)]
      rfl
    · have h0 : w - 64 = 0 := by omega
      rw [h0]
      rfl

theorem value_next (hw : w ≤ 128) (cb : Cb) :
    value (next (lowMask (min w 64)) (lowMask (w - 64)) cb) % 2 ^ w = (value cb + 1) % 2 ^ w := by
  have hl := toNat_bump_mod (Nat.min_le_right w 64) cb.lower
  have hz := toNat_bumped (Nat.min_le_right w 64) cb.lower
  unfold next value
  rcases Nat.lt_or_ge w 64 with h | h
  · -- the counter lies in the lower word, and the upper word stays
    have hdvd : 2 ^ w ∣ 2 ^ 64 := Nat.pow_dvd_pow 2 h.le
    have hmul : ∀ u x : ℕ, (u * 2 ^ 64 + x) % 2 ^ w = x % 2 ^ w := by
      intro u x
      obtain ⟨d, hd⟩ := hdvd
      rw [hd, ← Nat.mul_assoc, Nat.mul_right_comm, Nat.add_comm, add_mul_mod_self_right]
    rw [Nat.min_eq_left h.le, Nat.sub_eq_zero_of_le h.le, bump_zero]
    rw [Nat.min_eq_left h.le] at hl
    simp only [ite_self]
    rw [hmul, Nat.add_assoc, hmul, hl]
  · obtain ⟨k, rfl⟩ : ∃ k, w = 64 + k := ⟨w - 64, by omega⟩
    rw [Nat.min_eq_right h] at hl hz
    rw [Nat.min_eq_right h, Nat.add_sub_cancel_left]
    have hb := (bump (lowMask 64) cb.lower).isLt
    rw [mod_eq_of_lt hb] at hl
    have hu := toNat_bump_mod (k := k) (by omega) cb.upper
    have hpow : 2 ^ (64 + k) = 2 ^ 64 * 2 ^ k := pow_add 2 64 k
    by_cases hc : bumped (lowMask 64) cb.lower = 0
    · -- the lower word wraps
      rw [if_pos hc]
      have hwrap : cb.lower.toNat + 1 = 2 ^ 64 := by
        rw [hc] at hz
        have hzero : (cb.lower.toNat + 1) % 2 ^ 64 = 0 := by simpa using hz.symm
        omega
      have hlz : (bump (lowMask 64) cb.lower).toNat = 0 := by rw [hl, hwrap, mod_self]
      rw [hlz, Nat.add_zero, Nat.add_assoc, hwrap, ← succ_mul, hpow, Nat.mul_comm _ (2 ^ 64),
        Nat.mul_comm _ (2 ^ 64), mul_mod_mul_left, mul_mod_mul_left, hu]
    · rw [if_neg hc]
      have hno : cb.lower.toNat + 1 < 2 ^ 64 := by
        by_contra hn
        have : cb.lower.toNat + 1 = 2 ^ 64 := by omega
        rw [this, mod_self] at hz
        exact hc (BitVec.eq_of_toNat_eq hz)
      rw [mod_eq_of_lt hno] at hl
      rw [hl, Nat.add_assoc]

theorem value_iterate (hw : w ≤ 128) (cb : Cb) (i : ℕ) :
    value ((next (lowMask (min w 64)) (lowMask (w - 64)))^[i] cb) % 2 ^ w = (value cb + i) % 2 ^ w := by
  induction i with
  | zero => rw [iterate_zero, id, Nat.add_zero]
  | succ i ih => rw [iterate_succ_apply', value_next hw, add_mod, ih, ← add_mod, Nat.add_assoc]

theorem iterate_injective (hw : w ≤ 128) (cb : Cb) {i j : ℕ} (hi : i < 2 ^ w)
    (hj : j < 2 ^ w) (h : (next (lowMask (min w 64)) (lowMask (w - 64)))^[i] cb =
      (next (lowMask (min w 64)) (lowMask (w - 64)))^[j] cb) : i = j := by
  have hv := congrArg (fun c => value c % 2 ^ w) h
  simp only [value_iterate hw] at hv
  exact (Nat.ModEq.add_left_cancel' (value cb) hv).eq_of_lt_of_lt hi hj

/-! ## One update -/

variable {l : List Byte}

section Stream

variable (E : Cipher) (nx : Cb → Cb)

/-- The bytes XORed with the keystream from a counter block on. -/
def stream (cb : Cb) (l : List Byte) : List OutByte :=
  l.mapIdx fun p x => ((nx^[p / 16] cb, p % 16), x ^^^ (E.enc (nx^[p / 16] cb).bytes).getD (p % 16) 0)

theorem stream_short (cb : Cb) (h : l.length ≤ 16) : stream E nx cb l = keyed E cb l := by
  refine ext_getElem (by simp [stream, keyed]) fun i hi _ => ?_
  have hi : i < 16 := by
    simp only [stream, length_mapIdx] at hi
    omega
  simp [stream, keyed, div_eq_of_lt hi, mod_eq_of_lt hi]

theorem stream_append (cb : Cb) (h : l.length % 16 = 0) (k : List Byte) :
    stream E nx cb (l ++ k) = stream E nx cb l ++ stream E nx (nx^[l.length / 16] cb) k := by
  unfold stream
  rw [mapIdx_append]
  congr 2
  funext p x
  have hdiv : (p + l.length) / 16 = p / 16 + l.length / 16 := by omega
  have hmod : (p + l.length) % 16 = p % 16 := by omega
  rw [hdiv, hmod, iterate_add_apply]

end Stream

section Run

variable {E : Cipher} {c : Ctx}

/-- The increment of a context. -/
abbrev Ctx.next (c : Ctx) : Cb → Cb := Ctr.next c.lowerMask c.upperMask

theorem runBlocks_stream (lm um : BitVec 64) (cb : Cb) (l : List Byte) :
    (runBlocks 16 (step E lm um) cb l).1 = (Ctr.next lm um)^[l.length / 16] cb ∧
      (runBlocks 16 (step E lm um) cb l).2.2 ++ keyed E (runBlocks 16 (step E lm um) cb l).1
        (runBlocks 16 (step E lm um) cb l).2.1 = stream E (Ctr.next lm um) cb l := by
  induction l using blocks_induction (n := 16) (by decide) generalizing cb with
  | short l h =>
    rw [runBlocks_of_lt h, div_eq_of_lt h, stream_short E _ cb h.le]
    exact ⟨rfl, rfl⟩
  | block b l hb ih =>
    obtain ⟨hcb, hout⟩ := ih (Ctr.next lm um cb)
    rw [runBlocks_block (by decide) hb, length_append, hb, add_div_left _ (by decide),
      iterate_succ_apply, stream_append E _ cb (by rw [hb]), hb, stream_short E _ cb hb.le,
      Nat.div_self (by decide), iterate_one]
    refine ⟨hcb, ?_⟩
    simp only [step, append_assoc]
    rw [← hout]

theorem pieces_eq (hrem : c.remainder.length < 16) (ps : List (List Byte)) :
    pieces E c ps = (.success, { c with
        cb := (runBlocks 16 (step E c.lowerMask c.upperMask) c.cb (c.remainder ++ ps.flatten)).1
        remainder := (runBlocks 16 (step E c.lowerMask c.upperMask) c.cb (c.remainder ++ ps.flatten)).2.1 },
        (runBlocks 16 (step E c.lowerMask c.upperMask) c.cb (c.remainder ++ ps.flatten)).2.2) := by
  induction ps generalizing c with
  | nil => rw [flatten_nil, append_nil, runBlocks_of_lt hrem, pieces]
  | cons data rest ih =>
    have hrest : (runBlocks 16 (step E c.lowerMask c.upperMask) c.cb
        (c.remainder ++ data)).2.1.length < 16 := by
      rw [length_runBlocks_rest (by decide)]
      exact mod_lt _ (by decide)
    simp only [pieces, ctrModeContiguousBlocks, contiguousBlocks_eq _ _ c.cb hrem]
    rw [ih hrest, flatten_cons, ← append_assoc, runBlocks_append (by decide) c.cb (c.remainder ++ data)]
    simp only [ite_self]

theorem aesEncryptUpdate_eq (hrem : c.remainder = []) {u : Update}
    (hcap : u.1.flatten.length ≤ u.2) :
    aesEncryptUpdate E c u.1 u.2 = (.success, { c with cb := c.next^[u.1.flatten.length / 16] c.cb },
        stream E c.next c.cb u.1.flatten) := by
  have hlen : (runBlocks 16 (step E c.lowerMask c.upperMask) c.cb u.1.flatten).2.1.length =
      u.1.flatten.length % 16 := length_runBlocks_rest (by decide) _ _
  obtain ⟨hcb, hout⟩ := runBlocks_stream c.lowerMask c.upperMask c.cb u.1.flatten
  unfold aesEncryptUpdate
  simp only [pieces_eq (by rw [hrem]; decide), hrem, nil_append, length_nil, Nat.zero_add]
  rw [if_neg (by omega)]
  split
  · rw [ctrModeFinal, if_neg (by simp only; omega)]
    rw [hcb] at hout ⊢
    exact Prod.ext rfl (Prod.ext rfl hout)
  · have hnil : (runBlocks 16 (step E c.lowerMask c.upperMask) c.cb u.1.flatten).2.1 = [] :=
      eq_nil_of_length_eq_zero (by omega)
    rw [hnil] at hout ⊢
    rw [← hout, hcb]
    simp [keyed]

end Run

/-! ## All updates -/

section Updates

variable {E : Cipher} {c : Ctx}

def Update.text (u : Update) : List Byte := u.1.flatten

/-- An update that ends within a block is the last one with any data. -/
def Aligned : List Update → Prop
  | [] => True
  | u :: us => (u.text.length % 16 = 0 ∨ ∀ v ∈ us, v.text = []) ∧ Aligned us

theorem updates_cons (hrem : c.remainder = []) {u : Update} (hcap : u.text.length ≤ u.2)
    (us : List Update) :
    updates E c (u :: us) = (.success :: (updates E { c with cb := c.next^[u.text.length / 16] c.cb } us).1,
        stream E c.next c.cb u.text ++
          (updates E { c with cb := c.next^[u.text.length / 16] c.cb } us).2) := by
  rw [updates, aesEncryptUpdate_eq hrem hcap]
  rfl

variable {us : List Update}

section

variable (hrem : c.remainder = [])
include hrem

theorem updates_empty (h : ∀ u ∈ us, u.text = []) : (updates E c us).2 = [] := by
  induction us with
  | nil => rfl
  | cons u us ih =>
    have hu := h u mem_cons_self
    rw [updates_cons hrem (by rw [hu]; exact Nat.zero_le _), hu]
    exact ih fun v hv => h v (mem_cons_of_mem u hv)

theorem updates_aligned (hcap : ∀ u ∈ us, u.text.length ≤ u.2) (h : Aligned us) :
    (updates E c us).2 = stream E c.next c.cb (us.map Update.text).flatten := by
  induction us generalizing c with
  | nil => rfl
  | cons u us ih =>
    have hrest := ih (c := { c with cb := c.next^[u.text.length / 16] c.cb }) hrem
      (fun v hv => hcap v (mem_cons_of_mem u hv)) h.2
    rw [updates_cons hrem (hcap u mem_cons_self), map_cons, flatten_cons]
    rcases h.1 with hmod | hempty
    · rw [stream_append E _ _ hmod]
      simp only [hrest]
    have hnil : (us.map Update.text).flatten = [] := by
      rw [flatten_eq_nil_iff]
      intro l hl
      obtain ⟨v, hv, rfl⟩ := mem_map.1 hl
      exact hempty v hv
    have hout := updates_empty (E := E) (c := { c with cb := c.next^[u.text.length / 16] c.cb })
      hrem hempty
    simp only [hout, hnil, append_nil]

theorem mem_updates_of_data (hcap : ∀ u ∈ us, u.text.length ≤ u.2) (h : ∃ u ∈ us, u.text ≠ []) :
    (c.cb, 0) ∈ (updates E c us).2.map Prod.fst := by
  induction us with
  | nil =>
    obtain ⟨u, hu, -⟩ := h
    cases hu
  | cons u us ih =>
    rw [updates_cons hrem (hcap u mem_cons_self), map_append, mem_append]
    by_cases hu : u.text = []
    · right
      rw [hu]
      refine ih (fun v hv => hcap v (mem_cons_of_mem u hv)) ?_
      obtain ⟨v, hv, hne⟩ := h
      rcases mem_cons.1 hv with rfl | hv
      · exact absurd hu hne
      · exact ⟨v, hv, hne⟩
    · obtain ⟨x, l, hx⟩ := exists_cons_of_ne_nil hu
      rw [hx]
      simp [stream]

theorem not_nodup_of_not_aligned (hcap : ∀ u ∈ us, u.text.length ≤ u.2) (h : ¬ Aligned us) :
    ¬ ((updates E c us).2.map Prod.fst).Nodup := by
  induction us generalizing c with
  | nil => exact absurd trivial h
  | cons u us ih =>
    have hcap' : ∀ v ∈ us, v.text.length ≤ v.2 := fun v hv => hcap v (mem_cons_of_mem u hv)
    rw [updates_cons hrem (hcap u mem_cons_self), map_append]
    by_cases hal : Aligned us
    · -- this update ends within a block, and data follows
      have hu : ¬ (u.text.length % 16 = 0 ∨ ∀ v ∈ us, v.text = []) := fun h' => h ⟨h', hal⟩
      push Not at hu
      obtain ⟨hmod, hdata⟩ := hu
      have hsecond := mem_updates_of_data (E := E)
        (c := { c with cb := c.next^[u.text.length / 16] c.cb }) hrem hcap' hdata
      have hfirst : (c.next^[u.text.length / 16] c.cb, 0) ∈
          (stream E c.next c.cb u.text).map Prod.fst := by
        refine mem_map.2 ⟨_, getElem_mem (n := u.text.length / 16 * 16)
          (by simp only [stream, length_mapIdx]; omega), ?_⟩
        simp only [stream, getElem_mapIdx]
        rw [Nat.mul_div_cancel _ (by decide), mul_mod_left]
      exact fun hnd => (nodup_append.1 hnd).2.2 _ hfirst _ hsecond rfl
    · exact fun hnd => ih (c := { c with cb := c.next^[u.text.length / 16] c.cb }) hrem hcap' hal
        (nodup_append.1 hnd).2.1

end

theorem nodup_stream (hw : w ≤ 128) (cb : Cb) (hl : (l.length + 15) / 16 < 2 ^ w) :
    ((stream E (Ctr.next (lowMask (min w 64)) (lowMask (w - 64))) cb l).map Prod.fst).Nodup := by
  rw [nodup_iff_injective_get]
  rintro ⟨i, hi⟩ ⟨j, hj⟩ h
  simp only [stream, length_map, length_mapIdx] at hi hj
  simp only [get_eq_getElem, getElem_map, stream, getElem_mapIdx, Prod.mk.injEq] at h
  have := iterate_injective hw cb (by omega) (by omega) h.1
  rw [Fin.mk.injEq]
  omega

/-- No place of the keystream serves two bytes, and the updates give what one update over all
the plaintext gives, exactly when an update that ends within a block is the last with data. -/
theorem ctr_updates_iff (E : Cipher) (w : ℕ) (cb : Cb) (c : Ctx) (hinit : ctrInitCtx w cb = .ok c)
    (us : List Update) (hcap : ∀ u ∈ us, u.text.length ≤ u.2)
    (hblocks : ((us.map Update.text).flatten.length + 15) / 16 < 2 ^ w) :
    (((updates E c us).2.map Prod.fst).Nodup ∧
      ∀ cdLength, (us.map Update.text).flatten.length ≤ cdLength →
        (updates E c us).2.map Prod.snd =
          (aesEncryptUpdate E c [(us.map Update.text).flatten] cdLength).2.2.map Prod.snd) ↔
      Aligned us := by
  obtain ⟨-, hw, -, hrem, hmask⟩ := ctrInitCtx_masks hinit
  constructor
  · intro h
    by_contra hal
    exact not_nodup_of_not_aligned hrem hcap hal h.1
  intro hal
  rw [updates_aligned hrem hcap hal]
  refine ⟨?_, fun cdLength hcd => ?_⟩
  · unfold Ctx.next
    rw [hmask.lower, hmask.upper]
    exact nodup_stream hw c.cb hblocks
  · rw [aesEncryptUpdate_eq (u := ([(us.map Update.text).flatten], cdLength)) hrem (by simpa using hcd)]
    simp

theorem ctr_updates_iff_two_updates : ctrInitCtx 8 ⟨0, 0⟩ = .ok ⟨⟨0, 0⟩, [], 255, 0⟩ ∧
    (((updates counting ⟨⟨0, 0⟩, [], 255, 0⟩ [([replicate 16 7], 16), ([[1, 2]], 2)]).2.map
      Prod.fst).Nodup ∧
      ∀ cdLength, 18 ≤ cdLength →
        (updates counting ⟨⟨0, 0⟩, [], 255, 0⟩ [([replicate 16 7], 16), ([[1, 2]], 2)]).2.map
          Prod.snd =
          (aesEncryptUpdate counting ⟨⟨0, 0⟩, [], 255, 0⟩ [replicate 16 7 ++ [1, 2]]
            cdLength).2.2.map Prod.snd) := by
  refine ⟨rfl, ?_⟩
  exact (ctr_updates_iff counting 8 ⟨0, 0⟩ ⟨⟨0, 0⟩, [], 255, 0⟩ rfl
    [([replicate 16 7], 16), ([[1, 2]], 2)] (by decide) (by decide)).2
    ⟨Or.inl (by decide), Or.inr (by simp), trivial⟩

/-- Two updates of one byte each take the same byte of the keystream. -/
theorem ctr_updates_reuse : ctrInitCtx 8 ⟨0, 0⟩ = .ok ⟨⟨0, 0⟩, [], 255, 0⟩ ∧
    ¬ ((updates counting ⟨⟨0, 0⟩, [], 255, 0⟩ [([[1]], 1), ([[2]], 1)]).2.map Prod.fst).Nodup ∧
    (updates counting ⟨⟨0, 0⟩, [], 255, 0⟩ [([[1]], 1), ([[2]], 1)]).2.map Prod.snd = [1, 2] ∧
    (aesEncryptUpdate counting ⟨⟨0, 0⟩, [], 255, 0⟩ [[1, 2]] 2).2.2.map Prod.snd = [1, 3] := by
  refine ⟨rfl, ?_, ?_, ?_⟩ <;> decide

end Updates

end Osol.Modes.Ctr
