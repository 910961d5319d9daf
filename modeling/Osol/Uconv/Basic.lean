import Osol.Lib.Endian

/-!
# Unicode conversions

The six functions of `uconv.c`. The source writes each of them out; here a function is one of
three readers of the input with one of three ways to store a character.

The input is the list of its units. The output is memory from the start of the caller's
buffer on, of which the caller gave `cap` units. The pointers are not `NULL`. A character is
a number: no value in these functions reaches 2^32.
-/

namespace Osol.Uconv

open Osol.Lib List

/-- A unit of `n` bytes, as the machine reads it. -/
abbrev Word (n : ℕ) := BitVec (8 * n)

/-- `BSWAP_16`, `BSWAP_32`. -/
def Word.swap {n : ℕ} (u : Word n) : Word n := BitVec.ofNat _ (bswap n u.toNat)

/-- What the functions return, apart from 0. -/
inductive Errno where
  | ebadf
  | e2big
  | eilseq
  | einval
  deriving DecidableEq

structure Flag where
  inBigEndian : Bool
  outBigEndian : Bool
  inLittleEndian : Bool
  outLittleEndian : Bool
  ignoreNull : Bool
  inAcceptBom : Bool
  outEmitBom : Bool
  deriving DecidableEq

variable (sys : Endian)

/-- The byte order that two bits ask for, on a machine of order `sys`. -/
def checkOrder (big little : Bool) : Except Errno Endian :=
  if big && little then .error .ebadf
  else if big then .ok .big
  else if little then .ok .little
  else .ok sys

def checkEndian (flag : Flag) : Except Errno (Endian × Endian) := do
  let inendian ← checkOrder sys flag.inBigEndian flag.inLittleEndian
  let outendian ← checkOrder sys flag.outBigEndian flag.outLittleEndian
  return (inendian, outendian)

/-- The byte order this machine does not have. -/
def reversed : Endian → Endian
  | .little => .big
  | .big => .little

/-! ## The output buffer -/

/-- Memory from the start of the output buffer on, and the index of the next unit. -/
structure Out (n : ℕ) where
  mem : ℕ → Word n
  len : ℕ

def Out.push {n : ℕ} (o : Out n) (u : Word n) : Out n :=
  ⟨Function.update o.mem o.len u, o.len + 1⟩

/-- A number as a unit to be stored, swapped unless `native`. -/
def outWord (n : ℕ) (native : Bool) (v : ℕ) : Word n :=
  if native then BitVec.ofNat _ v else Word.swap (BitVec.ofNat _ v)

variable (native : Bool)

/-- The character is stored as UTF-32. -/
def putU32 (cap lo : ℕ) (o : Out 4) : Except Errno (Out 4) :=
  if cap ≤ o.len then .error .e2big else .ok (o.push (outWord 4 native lo))

/-- The character is stored as UTF-16. -/
def putU16 (cap hi : ℕ) (o : Out 2) : Except Errno (Out 2) :=
  if 0x10000 ≤ hi then
    let lo := (hi - 0x10000) % 0x400 + 0xdc00
    let hi := (hi - 0x10000) / 0x400 + 0xd800
    if cap ≤ o.len + 1 then .error .e2big
    else .ok ((o.push (outWord 2 native hi)).push (outWord 2 native lo))
  else if cap ≤ o.len then .error .e2big
  else .ok (o.push (outWord 2 native hi))

/-- The character is stored as UTF-8. -/
def putU8 (cap lo : ℕ) (o : Out 1) : Except Errno (Out 1) :=
  let byte (v : ℕ) : Word 1 := BitVec.ofNat _ v
  if lo ≤ 0x7f then
    if cap ≤ o.len then .error .e2big else .ok (o.push (byte lo))
  else if lo ≤ 0x7ff then
    if cap ≤ o.len + 1 then .error .e2big
    else .ok ((o.push (byte (0xc0 ||| (lo &&& 0x07c0) >>> 6))).push (byte (0x80 ||| lo &&& 0x003f)))
  else if lo ≤ 0xffff then
    if cap ≤ o.len + 2 then .error .e2big
    else .ok (((o.push (byte (0xe0 ||| (lo &&& 0x0f000) >>> 12))).push
      (byte (0x80 ||| (lo &&& 0x00fc0) >>> 6))).push (byte (0x80 ||| lo &&& 0x0003f)))
  else if lo ≤ 0x10ffff then
    if cap ≤ o.len + 3 then .error .e2big
    else .ok ((((o.push (byte (0xf0 ||| (lo &&& 0x01c0000) >>> 18))).push
      (byte (0x80 ||| (lo &&& 0x003f000) >>> 12))).push
      (byte (0x80 ||| (lo &&& 0x0000fc0) >>> 6))).push (byte (0x80 ||| lo &&& 0x000003f)))
  else .error .eilseq

/-- The test of `uconv_u32tou16` before it stores a character. -/
def putU16Checked (cap hi : ℕ) (o : Out 2) : Except Errno (Out 2) :=
  if 0x10ffff < hi then .error .eilseq else putU16 native cap hi o

/-! ## The readers

A loop returns an error or the number of units it has read, and the buffer as it leaves it. -/

section Readers

variable {m : ℕ} (put : ℕ → Out m → Except Errno (Out m))

/-- A character is stored, and the loop goes on. -/
def store (v : ℕ) (o : Out m) (next : Out m → Except Errno ℕ × Out m) : Except Errno ℕ × Out m :=
  match put v o with
  | .error e => (.error e, o)
  | .ok o' => next o'

/-- The unit as a number, swapped unless `native`. -/
def inWord {n : ℕ} (u : Word n) : ℕ :=
  if native then u.toNat else u.swap.toNat

/-- The loop over UTF-16: `hi` is a high surrogate that waits for its low half, or 0. -/
def readU16 (native doNotIgnoreNull : Bool) : List (Word 2) → ℕ → ℕ → Out m → Except Errno ℕ × Out m
  | [], u16l, hi, o => (if hi ≠ 0 then .error .einval else .ok u16l, o)
  | u :: us, u16l, hi, o =>
    if u = 0 ∧ doNotIgnoreNull then (if hi ≠ 0 then .error .einval else .ok u16l, o)
    else
      let lo := inWord native u
      if 0xd800 ≤ lo ∧ lo ≤ 0xdbff then
        if hi ≠ 0 then (.error .eilseq, o)
        else readU16 native doNotIgnoreNull us (u16l + 1) lo o
      else if 0xdc00 ≤ lo ∧ lo ≤ 0xdfff then
        if hi = 0 then (.error .eilseq, o)
        else
          let lo := (((hi - 0xd800) * 0x400 + lo - 0xdc00) &&& 0xfffff) + 0x10000
          store put lo o (readU16 native doNotIgnoreNull us (u16l + 1) 0)
      else if hi ≠ 0 then (.error .eilseq, o)
      else store put lo o (readU16 native doNotIgnoreNull us (u16l + 1) 0)

/-- The loop over UTF-32. -/
def readU32 (native doNotIgnoreNull : Bool) : List (Word 4) → ℕ → Out m → Except Errno ℕ × Out m
  | [], u32l, o => (.ok u32l, o)
  | u :: us, u32l, o =>
    if u = 0 ∧ doNotIgnoreNull then (.ok u32l, o)
    else store put (inWord native u) o (readU32 native doNotIgnoreNull us (u32l + 1))

def remainingBytesTbl : List ℕ :=
  replicate 0xc0 0 ++ [0, 0] ++ replicate 14 1 ++ replicate 16 1 ++
    replicate 16 2 ++ replicate 5 3 ++ replicate 11 0

def u8MasksTbl : List ℕ := [0x00, 0x1f, 0x0f, 0x07, 0x03, 0x01]

def validMin2ndByte : List ℕ :=
  replicate 0xc0 0 ++ [0, 0] ++ replicate 30 0x80 ++ [0xa0] ++ replicate 15 0x80 ++
    [0x90] ++ replicate 4 0x80 ++ replicate 11 0

def validMax2ndByte : List ℕ :=
  replicate 0xc0 0 ++ [0, 0] ++ replicate 30 0xbf ++ replicate 13 0xbf ++ [0x9f] ++
    replicate 2 0xbf ++ replicate 4 0xbf ++ [0x8f] ++ replicate 11 0

/-- The loop over the remaining bytes of a character: the character, the bytes read so far
and the rest of the input. `firstB` is the first byte until the second has been checked. -/
def collect : ℕ → ℕ → ℕ → List (Word 1) → ℕ → Except Errno (ℕ × List (Word 1) × ℕ)
  | 0, _, hi, bs, u8l => .ok (hi, bs, u8l)
  | _ + 1, _, _, [], _ => .error .einval
  | remaining + 1, firstB, hi, b :: bs, u8l =>
    let lo := b.toNat
    let next := collect remaining 0 (hi <<< 6 ||| lo &&& 0x3f) bs (u8l + 1)
    if firstB ≠ 0 then
      if lo < validMin2ndByte.getD firstB 0 ∨ validMax2ndByte.getD firstB 0 < lo then
        .error .eilseq
      else next
    else if lo < 0x80 ∨ 0xbf < lo then .error .eilseq
    else next

/-- A UTF-8 character from its first byte `b` on. -/
def readChar (b : Word 1) (bs : List (Word 1)) (u8l : ℕ) : Except Errno (ℕ × List (Word 1) × ℕ) :=
  let hi := b.toNat
  if 0x7f < hi then
    let remaining := remainingBytesTbl.getD hi 0
    if remaining = 0 then .error .eilseq
    else collect remaining hi (hi &&& u8MasksTbl.getD remaining 0) bs (u8l + 1)
  else .ok (hi, bs, u8l + 1)

theorem collect_length_le {r f hi : ℕ} {bs : List (Word 1)} {l : ℕ}
    {x : ℕ × List (Word 1) × ℕ} (h : collect r f hi bs l = .ok x) : x.2.1.length ≤ bs.length := by
  induction r generalizing f hi bs l with
  | zero =>
    cases h
    exact Nat.le_refl _
  | succ r ih =>
    cases bs with
    | nil => simp [collect] at h
    | cons b bs =>
      have hle : x.2.1.length ≤ bs.length := by
        simp only [collect] at h
        split at h <;> split at h <;> first | exact ih h | simp at h
      exact Nat.le_trans hle (Nat.le_succ _)

theorem readChar_length_le {b : Word 1} {bs : List (Word 1)} {l : ℕ}
    {x : ℕ × List (Word 1) × ℕ} (h : readChar b bs l = .ok x) : x.2.1.length ≤ bs.length := by
  unfold readChar at h
  simp only at h
  split at h
  · split at h
    · cases h
    · exact collect_length_le h
  · cases h
    exact Nat.le_refl _

/-- The loop over UTF-8. -/
def readU8 (doNotIgnoreNull : Bool) (bs : List (Word 1)) (u8l : ℕ) (o : Out m) :
    Except Errno ℕ × Out m :=
  match bs with
  | [] => (.ok u8l, o)
  | b :: bs =>
    if b = 0 ∧ doNotIgnoreNull then (.ok u8l, o)
    else
      match h : readChar b bs u8l with
      | .error e => (.error e, o)
      | .ok (hi, rest, u8l) =>
        have : rest.length < bs.length + 1 := Nat.lt_succ_of_le (readChar_length_le h)
        store put hi o (readU8 doNotIgnoreNull rest u8l)
  termination_by bs.length

end Readers

/-! ## The functions -/

/-- What a function returns (`none` is 0), the two lengths and the memory it leaves. -/
structure Result (m : ℕ) where
  ret : Option Errno
  inLen : ℕ
  outLen : ℕ
  mem : ℕ → Word m

/-- The lengths are stored only when the loop has ended without an error. -/
def finish {m : ℕ} (inLen cap : ℕ) (r : Except Errno ℕ × Out m) : Result m :=
  match r with
  | (.error e, o) => ⟨some e, inLen, cap, o.mem⟩
  | (.ok used, o) => ⟨none, used, o.len, o.mem⟩

/-- `check_bom16` (`swapped` is `UCONV_BOM_SWAPPED`) and `check_bom32` (`swapped` is
`UCONV_BOM_SWAPPED_32`). -/
def checkBom {n : ℕ} (swapped : ℕ) (us : List (Word n)) : Option Endian :=
  match us with
  | [] => none
  | u :: _ =>
    if u = BitVec.ofNat _ 0xfeff then some sys
    else if u = BitVec.ofNat _ swapped then some (reversed sys)
    else none

/-- The byte order of the input, its units after a byte order mark and the units skipped. -/
def acceptBom {n : ℕ} (swapped : ℕ) (flag : Flag) (inendian : Endian)
    (us : List (Word n)) : Endian × List (Word n) × ℕ :=
  if flag.inAcceptBom then
    match checkBom sys swapped us with
    | some e => (e, us.tail, 1)
    | none => (inendian, us, 0)
  else (inendian, us, 0)

/-- The byte order mark is stored, if asked for and if there are input and room. -/
def emitBom {n m : ℕ} (swapped : ℕ) (flag : Flag) (native : Bool) (us : List (Word n)) (cap : ℕ)
    (o : Out m) : Out m :=
  if 0 < us.length ∧ 0 < cap ∧ flag.outEmitBom then
    o.push (BitVec.ofNat _ (if native then 0xfeff else swapped))
  else o

section Functions

variable (sys : Endian)

def uconvU16tou32 (u16s : List (Word 2)) (u32s : ℕ → Word 4) (cap : ℕ) (flag : Flag) : Result 4 :=
  match checkEndian sys flag with
  | .error e => ⟨some e, u16s.length, cap, u32s⟩
  | .ok (inendian, outendian) =>
    let (inendian, us, u16l) := acceptBom sys 0xfffe flag inendian u16s
    let native := decide (outendian = sys)
    let o := emitBom 0xfffe0000 flag native u16s cap ⟨u32s, 0⟩
    finish u16s.length cap
      (readU16 (putU32 native cap) (decide (inendian = sys)) (!flag.ignoreNull) us u16l 0 o)

def uconvU16tou8 (u16s : List (Word 2)) (u8s : ℕ → Word 1) (cap : ℕ) (flag : Flag) : Result 1 :=
  match checkEndian sys flag with
  | .error e => ⟨some e, u16s.length, cap, u8s⟩
  | .ok (inendian, _) =>
    let (inendian, us, u16l) := acceptBom sys 0xfffe flag inendian u16s
    finish u16s.length cap
      (readU16 (putU8 cap) (decide (inendian = sys)) (!flag.ignoreNull) us u16l 0 ⟨u8s, 0⟩)

def uconvU32tou16 (u32s : List (Word 4)) (u16s : ℕ → Word 2) (cap : ℕ) (flag : Flag) : Result 2 :=
  match checkEndian sys flag with
  | .error e => ⟨some e, u32s.length, cap, u16s⟩
  | .ok (inendian, outendian) =>
    let (inendian, us, u32l) := acceptBom sys 0xfffe0000 flag inendian u32s
    let native := decide (outendian = sys)
    let o := emitBom 0xfffe flag native u32s cap ⟨u16s, 0⟩
    finish u32s.length cap
      (readU32 (putU16Checked native cap) (decide (inendian = sys)) (!flag.ignoreNull) us u32l o)

def uconvU32tou8 (u32s : List (Word 4)) (u8s : ℕ → Word 1) (cap : ℕ) (flag : Flag) : Result 1 :=
  match checkEndian sys flag with
  | .error e => ⟨some e, u32s.length, cap, u8s⟩
  | .ok (inendian, _) =>
    let (inendian, us, u32l) := acceptBom sys 0xfffe0000 flag inendian u32s
    finish u32s.length cap
      (readU32 (putU8 cap) (decide (inendian = sys)) (!flag.ignoreNull) us u32l ⟨u8s, 0⟩)

def uconvU8tou16 (u8s : List (Word 1)) (u16s : ℕ → Word 2) (cap : ℕ) (flag : Flag) : Result 2 :=
  match checkEndian sys flag with
  | .error e => ⟨some e, u8s.length, cap, u16s⟩
  | .ok (_, outendian) =>
    let native := decide (outendian = sys)
    let o := emitBom 0xfffe flag native u8s cap ⟨u16s, 0⟩
    finish u8s.length cap (readU8 (putU16 native cap) (!flag.ignoreNull) u8s 0 o)

def uconvU8tou32 (u8s : List (Word 1)) (u32s : ℕ → Word 4) (cap : ℕ) (flag : Flag) : Result 4 :=
  match checkEndian sys flag with
  | .error e => ⟨some e, u8s.length, cap, u32s⟩
  | .ok (_, outendian) =>
    let native := decide (outendian = sys)
    let o := emitBom 0xfffe0000 flag native u8s cap ⟨u32s, 0⟩
    finish u8s.length cap (readU8 (putU32 native cap) (!flag.ignoreNull) u8s 0 o)

end Functions

end Osol.Uconv
